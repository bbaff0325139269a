import CallAtlas.Proofs.Ir.Cuts
import CallAtlas.Proofs.Ir.Entities
import CallAtlas.Proofs.Outcome

/-!
# Functions and their lines

The lines of a body that are kept go one after the other into its blocks, and the blocks written out
are these lines again: `text_readAll`. White space behind a header does not change the name in it,
`functionName_trimRight`. A function is `Drawn` if lines write it; its header is read as one,
`line_header`, and so are the lines of its body, `foldlM_inside`.
-/

namespace CallAtlas.Ir

open Text List

variable {s t b l : List Char} {ls : List (List Char)} {name : String}

/-! ## Lines of a body -/

/-- A line of a body that is neither empty nor a comment and does not close the body. -/
structure Kept (l : List Char) : Prop where
  inside : startsWith ['\x7d'] l = false
  filled : trim l ≠ []
  code : (trim l).head? ≠ some ';'

/-- Whether a line is neither blank nor a comment. -/
def isCode (l : List Char) : Bool := trim l ≠ [] && (trim l).head? ≠ some ';'

def closesBody (l : List Char) : Bool := startsWith ['\x7d'] l

theorem kept_iff : Kept l ↔ closesBody l = false ∧ isCode l := by
  rw [isCode, Bool.and_eq_true, decide_eq_true_eq, decide_eq_true_eq]
  exact ⟨fun h => ⟨h.inside, h.filled, h.code⟩, fun h => ⟨h.1, h.2.1, h.2.2⟩⟩

namespace OpenBody

def start (name header : String) : OpenBody := ⟨name, header, [], false, 0⟩

/-- The body with one more kept line. -/
def read (b : OpenBody) (l : List Char) : OpenBody :=
  match (if startsWith [' '] l then none else label? l) with
  | some label => b.addLabel label (String.ofList l)
  | none => b.addLine l

def text (b : OpenBody) : List Char := unlines ((b.blocks.flatMap Block.lines).map String.toList)

def Ready (b : OpenBody) : Prop :=
  b.mayContinue → ∃ blocks label is i line, b.blocks = blocks ++ [⟨label, is ++ [i], line⟩]

end OpenBody

theorem modifyLast_concat {α : Type} (f : α → α) (xs : List α) (x : α) :
    modifyLast f (xs ++ [x]) = xs ++ [f x] := by
  induction xs with
  | nil => rfl
  | cons a xs ih =>
    cases xs with
    | nil => rfl
    | cons a' xs =>
      show a :: modifyLast f (a' :: xs ++ [x]) = a :: (a' :: xs ++ [f x])
      rw [ih]

namespace OpenBody

variable {b : OpenBody}

theorem text_eq {blocks : List Block} {k : Block} (h : b.blocks = blocks ++ [k]) :
    b.text = unlines ((blocks.flatMap Block.lines).map String.toList) ++
      unlines (k.lines.map String.toList) := by
  simp [text, h]

theorem text_addLabel (b : OpenBody) (label : String) (l : List Char) :
    (b.addLabel label (String.ofList l)).text = b.text ++ unlines [l] := by
  simp [addLabel, text, Block.lines]

/-- A line of an instruction goes on with the last one, or opens a new one. -/
theorem addLine_cases (b : OpenBody) (l : List Char) :
    (b.mayContinue ∧ ∃ d, b.addLine l = { b with
      blocks := modifyLast (fun k => { k with
        instructions := modifyLast (fun i => ⟨i.text ++ "\n" ++ String.ofList l⟩) k.instructions })
        b.blocks
      depth := d }) ∨
    ∃ d, b.addLine l = { b with
      blocks := modifyLast
        (fun k => { k with instructions := k.instructions ++ [⟨String.ofList l⟩] })
        (if b.blocks.isEmpty then [⟨"entry", [], none⟩] else b.blocks)
      mayContinue := true
      depth := d } := by
  by_cases hc : (b.mayContinue && (0 < b.depth || 2 < (l.takeWhile (· = ' ')).length)) = true
  · exact .inl ⟨(Bool.and_eq_true_iff.1 hc).1, _, if_pos hc⟩
  · exact .inr ⟨_, if_neg hc⟩

theorem addLine_text (hb : b.Ready) (l : List Char) :
    (b.addLine l).text = b.text ++ unlines [l] ∧ (b.addLine l).Ready := by
  rcases addLine_cases b l with ⟨hc, d, hd⟩ | ⟨d, hd⟩
  · obtain ⟨blocks, label, is, i, line, hblocks⟩ := hb hc
    have hnew : (b.addLine l).blocks =
        blocks ++ [⟨label, is ++ [⟨i.text ++ "\n" ++ String.ofList l⟩], line⟩] := by
      rw [hd]
      simp only [hblocks, modifyLast_concat]
    refine ⟨?_, fun _ => ⟨blocks, label, is, _, line, hnew⟩⟩
    rw [text_eq hnew, text_eq hblocks]
    simp [Block.lines]
  · -- a body without blocks gets one that has no line of its own
    obtain ⟨blocks, k, hk, htext⟩ : ∃ blocks k,
        (if b.blocks.isEmpty then [⟨"entry", [], none⟩] else b.blocks) = blocks ++ [k] ∧
          b.text = unlines ((blocks.flatMap Block.lines).map String.toList) ++
          unlines (k.lines.map String.toList) := by
      by_cases he : b.blocks = []
      · refine ⟨[], ⟨"entry", [], none⟩, by rw [he]; rfl, ?_⟩
        rw [text, he]
        rfl
      · have hlast := (dropLast_append_getLast he).symm
        refine ⟨_, _, ?_, text_eq hlast⟩
        rw [if_neg (by simpa using he)]
        exact hlast
    have hnew : (b.addLine l).blocks =
        blocks ++ [⟨k.label, k.instructions ++ [⟨String.ofList l⟩], k.labelLine⟩] := by
      rw [hd]
      simp only [hk, modifyLast_concat]
    refine ⟨?_, fun _ => ⟨blocks, k.label, k.instructions, _, k.labelLine, hnew⟩⟩
    rw [text_eq hnew, htext]
    simp [Block.lines]

theorem read_text (hb : b.Ready) (l : List Char) :
    (b.read l).text = b.text ++ unlines [l] ∧ (b.read l).Ready := by
  unfold read
  split
  · exact ⟨text_addLabel b _ l, fun h => absurd h (by simp [addLabel])⟩
  · exact addLine_text hb l

theorem text_readAll (hb : b.Ready) (ls : List (List Char)) :
    (ls.foldl read b).text = b.text ++ unlines ls := by
  induction ls generalizing b with
  | nil => simp
  | cons l ls ih =>
    obtain ⟨ht, hr⟩ := read_text hb l
    rw [foldl_cons, ih hr, ht]
    simp

theorem read_named (b : OpenBody) (l : List Char) :
    (b.read l).name = b.name ∧ (b.read l).header = b.header := by
  unfold read
  split
  · exact ⟨rfl, rfl⟩
  · rcases addLine_cases b l with ⟨-, d, hd⟩ | ⟨d, hd⟩
    · rw [hd]
      exact ⟨rfl, rfl⟩
    · rw [hd]
      exact ⟨rfl, rfl⟩

end OpenBody

theorem bodyLine_eq (s : ParseState) (b : OpenBody) (l : List Char) : s.bodyLine b l =
    if closesBody l then s.closeBody else if isCode l then { s with body := some (b.read l) }
    else s := by
  unfold ParseState.bodyLine
  refine if_congr Iff.rfl rfl ?_
  split
  · next ht => simp [isCode, ht]
  · next ht => simp [isCode, ht]
  · next h1 h2 =>
    have hk : isCode l := by
      rw [isCode, Bool.and_eq_true, decide_eq_true_eq, decide_eq_true_eq]
      refine ⟨h1, fun h => ?_⟩
      obtain ⟨t, ht⟩ := head?_eq_some_iff.1 h
      exact h2 t ht
    rw [if_pos hk, OpenBody.read]
    cases if startsWith [' '] l then none else label? l <;> rfl

theorem foldlM_inside (h : ∀ l ∈ ls, closesBody l = false) (m : IrModule) (b : OpenBody) :
    ls.foldlM ParseState.line ⟨m, some b⟩ =
      .ok ⟨m, some ((ls.filter isCode).foldl OpenBody.read b)⟩ := by
  induction ls generalizing b with
  | nil => rfl
  | cons l ls ih =>
    obtain ⟨hl, hls⟩ := forall_mem_cons.1 h
    have hline : ParseState.line ⟨m, some b⟩ l =
        .ok (if isCode l then ⟨m, some (b.read l)⟩ else ⟨m, some b⟩) := by
      refine congrArg Except.ok ((bodyLine_eq ⟨m, some b⟩ b l).trans ?_)
      rw [hl, if_neg Bool.false_ne_true]
    rw [foldlM_cons, hline, filter_cons]
    split_ifs
    · exact ih hls _
    · exact ih hls _

/-! ## Headers -/

theorem search?_blanks (hb : ∀ c ∈ b, isBlank c) : globalReader.search? b = none := by
  induction b with
  | nil => rfl
  | cons c b ih =>
    obtain ⟨hc, hb⟩ := forall_mem_cons.1 hb
    have hne : c ≠ '@' := by
      rintro rfl
      exact absurd hc (by decide)
    rw [Reader.search?, sigiled_globalReader.read_none hne]
    exact ih hb

theorem read_of_blanks {R : Reader Spelling} {c : Char} (hR : Sigiled R c) (hb : ∀ c ∈ b, isBlank c)
    {w : Spelling} {u r : List Char} (h : R.read (t ++ b) = some (w, u, r)) :
    ∃ r', R.read t = some (w, u, r') := by
  obtain ⟨hsplit, -⟩ := R.split h
  obtain ⟨v, rfl, hv⟩ := hR.token h
  rcases append_eq_append_iff.1 hsplit with ⟨a, hu, rfl⟩ | ⟨a, rfl, rfl⟩
  · cases a using reverseRecOn with
    | nil =>
      rw [append_nil] at hu
      have := hR.swap h (show Follows _ [] from .inr rfl)
      rw [append_nil] at this
      exact ⟨[], hu ▸ this⟩
    | append_singleton a d =>
      -- the last character of the reference would be blank
      have hl := hv.getLast?_isBlank hR.sigil
      rw [hu, ← append_assoc, getLast?_concat] at hl
      have hd := hb d (by simp)
      rw [Option.any_some, hd] at hl
      cases hl
  · refine ⟨a, hR.swap h ?_⟩
    cases a with
    | nil => exact .inr rfl
    | cons d a => exact .inl rfl

theorem search?_append_blanks (hb : ∀ c ∈ b, isBlank c) (t : List Char) :
    (globalReader.search? t).map Prod.fst = (globalReader.search? (t ++ b)).map Prod.fst := by
  induction t with
  | nil =>
    rw [nil_append, search?_blanks hb]
    rfl
  | cons c t ih =>
    rw [cons_append, Reader.search?, Reader.search?]
    cases hr : globalReader.read (c :: t) with
    | some p =>
      obtain ⟨w, u, r⟩ := p
      have hsplit := (globalReader.split hr).1
      have hswap := sigiled_globalReader.swap hr (follows_append (delimited_blanks hb) r)
      rw [← append_assoc, ← hsplit, cons_append] at hswap
      rw [hswap]
      rfl
    | none =>
      cases hr' : globalReader.read (c :: (t ++ b)) with
      | some p =>
        obtain ⟨r', h⟩ := read_of_blanks (t := c :: t) sigiled_globalReader hb hr'
        rw [h] at hr
        cases hr
      | none => exact ih

theorem functionName_trimRight (h : functionName l = .ok name) :
    functionName (trimRight l) = .ok name := by
  obtain ⟨b, hl, hb⟩ := trimRight_append l
  have hs := search?_append_blanks hb (trimRight l)
  rw [← hl] at hs
  unfold functionName at h ⊢
  cases hf : globalReader.search? l with
  | none =>
    rw [hf] at h
    cases h
  | some p =>
    rw [hf] at hs
    obtain ⟨q, hq, hw⟩ := Option.map_eq_some_iff.1 hs
    rw [hf] at h
    rw [hq]
    show Except.ok (String.ofList q.1.name) = _
    rw [hw]
    exact h

theorem mem_of_search? {p : Spelling × List Char} (h : globalReader.search? l = some p) :
    '@' ∈ l := by
  induction l with
  | nil => cases h
  | cons c l ih =>
    rw [Reader.search?] at h
    split at h
    · next w u r hr =>
      obtain ⟨v, rfl, -⟩ := sigiled_globalReader.token hr
      rw [(globalReader.split hr).1]
      exact mem_append_left r mem_cons_self
    · exact mem_cons_of_mem c (ih h)

theorem startsWith_trimRight {word : List Char} (hw : '@' ∉ word) (h : startsWith word l)
    (hn : functionName l = .ok name) : startsWith word (trimRight l) := by
  obtain ⟨b, hl, -⟩ := trimRight_append l
  have hmem : '@' ∈ trimRight l := by
    have hf := functionName_trimRight hn
    unfold functionName at hf
    split at hf
    · next hs => exact mem_of_search? hs
    · cases hf
  have hp : word <+: trimRight l ++ b := by
    rw [← hl]
    exact isPrefixOf_iff_prefix.1 h
  rcases prefix_or_prefix_of_prefix hp (prefix_append _ b) with hp | hp
  · exact isPrefixOf_iff_prefix.2 hp
  · exact absurd (hp.subset hmem) hw

theorem trim_eq_nil : trim l = [] ↔ ∀ c ∈ l, isBlank c := by
  constructor
  · exact fun h c hc => (mem_trim_or_isBlank hc).resolve_left (h ▸ not_mem_nil)
  · intro h
    have hl : trimLeft l = [] := dropWhile_eq_nil_iff.2 h
    rw [trim, hl]
    rfl

/-! ## Lines of a module -/

def isHeader (l : List Char) : Bool :=
  startsWith "define ".toList l || startsWith "declare ".toList l

theorem isHeader_head (h : isHeader l) : ∃ t, l = 'd' :: t := by
  rcases Bool.or_eq_true _ _ ▸ h with h | h
  · obtain ⟨t, rfl⟩ := isPrefixOf_iff_prefix.1 h
    exact ⟨_, rfl⟩
  · obtain ⟨t, rfl⟩ := isPrefixOf_iff_prefix.1 h
    exact ⟨_, rfl⟩

/-- The identifier behind a comment: the first one that is given stays. -/
def identified (identifier : String) (l : List Char) : String :=
  match moduleId? l with
  | some id => if identifier.isEmpty then id else identifier
  | none => identifier

/-- The module with a line that is no header of a function. -/
def plainLine (m : IrModule) (l : List Char) : IrModule :=
  if trim l = [] then m
  else if startsWith [';'] l then { m with identifier := identified m.identifier l }
  else match entity? l with
    | some e => e.add m
    | none => { m with extraLines := m.extraLines ++ [String.ofList l] }

def opensBody (l : List Char) : Bool :=
  startsWith "define ".toList l && (trimRight l).getLast? = some '\x7b'

namespace ParseState

variable {s s' : ParseState}

/-- The state behind the header of a function. -/
def opened (s : ParseState) (l : List Char) (name : String) : ParseState :=
  ⟨{ s.module with functions := s.module.functions.insert name ⟨name,
    String.ofList (trimRight l), []⟩ },
    if opensBody l then some (.start name (String.ofList (trimRight l))) else none⟩

theorem functionLine_eq (s : ParseState) (l : List Char) :
    s.functionLine (startsWith "define ".toList l) l = (functionName l).map (s.opened l) := by
  unfold functionLine
  cases functionName l with
  | error e => rfl
  | ok name =>
    show (if opensBody l then _ else _) = Except.ok _
    unfold opened
    split_ifs <;> rfl

theorem topLine_eq (s : ParseState) (l : List Char) : s.topLine l =
    if isHeader l then (functionName l).map (s.opened l)
    else .ok { s with module := plainLine s.module l } := by
  unfold topLine plainLine
  by_cases h : isHeader l
  · obtain ⟨t, rfl⟩ := isHeader_head h
    have ht : trim ('d' :: t) ≠ [] :=
      fun ht => absurd (trim_eq_nil.1 ht 'd' mem_cons_self) (by decide)
    rw [if_pos h, if_neg ht, if_neg (by exact Bool.false_ne_true), ← functionLine_eq]
    rw [isHeader, Bool.or_eq_true] at h
    split_ifs with h1 h2
    · rw [h1]
    · rw [eq_false_of_ne_true h1]
    · exact absurd h (not_or.2 ⟨h1, h2⟩)
  · rw [if_neg h]
    rw [isHeader, Bool.or_eq_true, not_or] at h
    rw [if_neg h.1, if_neg h.2, entityLine?_eq]
    by_cases ht : trim l = []
    · rw [if_pos ht, if_pos ht]
    rw [if_neg ht, if_neg ht]
    by_cases hc : startsWith [';'] l
    · rw [if_pos hc, if_pos hc, identified]
      cases moduleId? l with
      | none => rfl
      | some id => cases h : s.module.identifier.isEmpty <;> rfl
    · rw [if_neg hc, if_neg hc]
      cases entity? l <;> rfl

/-- A line belongs to the open body, or is the header of a function, or neither. -/
theorem line_cases (h : s.line l = .ok s') : (∃ b, s.body = some b ∧ s' = s.bodyLine b l) ∨
    s.body = none ∧ (isHeader l ∧ (∃ name, functionName l = .ok name ∧ s' = s.opened l name) ∨
      isHeader l = false ∧ s' = ⟨plainLine s.module l, none⟩) := by
  unfold line at h
  cases hb : s.body with
  | some b =>
    rw [hb] at h
    exact .inl ⟨b, rfl, (Except.ok.inj h).symm⟩
  | none =>
    rw [hb] at h
    have h := (topLine_eq s l).symm.trans h
    rw [hb] at h
    split_ifs at h with hh
    · obtain ⟨name, hn, hs⟩ := map_eq_ok h
      exact .inr ⟨rfl, .inl ⟨hh, name, hn, hs.symm⟩⟩
    · exact .inr ⟨rfl, .inr ⟨eq_false_of_ne_true hh, (Except.ok.inj h).symm⟩⟩

end ParseState

/-! ## Functions -/

/-- A header that stands on a line of its own and holds a name. -/
structure Titled (name header : String) : Prop where
  breakless : Breakless header.toList
  trimmed : trimRight header.toList = header.toList
  named : functionName header.toList = .ok name

theorem titled_trimRight (hl : Breakless l) (hn : functionName l = .ok name) :
    Titled name (String.ofList (trimRight l)) := by
  obtain ⟨b, hb, -⟩ := trimRight_append l
  refine ⟨?_, ?_, ?_⟩
  · rw [String.toList_ofList]
    rw [hb] at hl
    exact (breakless_append.1 hl).1
  · rw [String.toList_ofList, trimRight_trimRight]
  · rw [String.toList_ofList, functionName_trimRight hn]

/-- A body that lines have filled since its opening brace. -/
def OpenBody.Filled (b : OpenBody) : Prop :=
  ∃ ls : List (List Char), (∀ l ∈ ls, Kept l ∧ Breakless l) ∧
    b = ls.foldl read (start b.name b.header)

theorem OpenBody.filled_start (name header : String) : (start name header).Filled :=
  ⟨[], fun _ h => absurd h not_mem_nil, rfl⟩

theorem OpenBody.Filled.read {b : OpenBody} (hb : b.Filled) (hk : Kept l) (hl : Breakless l) :
    (b.read l).Filled := by
  obtain ⟨ls, hls, he⟩ := hb
  obtain ⟨hn, hh⟩ := b.read_named l
  refine ⟨ls ++ [l], ?_, ?_⟩
  · rintro l' hl'
    rcases mem_append.1 hl' with hl' | hl'
    · exact hls l' hl'
    · obtain rfl := mem_singleton.1 hl'
      exact ⟨hk, hl⟩
  · rw [hn, hh, foldl_append, ← he]
    rfl

/-- A function that lines write: a declaration, or a definition with the body that it has at its
closing brace. -/
inductive Drawn : Function → Prop where
  | declared {name header : String} (title : Titled name header)
    (word : startsWith "declare ".toList header.toList) :
    Drawn ⟨name, header, []⟩
  | defined {b : OpenBody} (title : Titled b.name b.header)
    (word : startsWith "define ".toList b.header.toList)
    (body : b.Filled) : Drawn b.function

theorem isDeclaration_of_declare {f : Function} (h : startsWith "declare ".toList f.header.toList) :
    f.isDeclaration := by
  rw [Function.isDeclaration, String.startsWith_string_iff]
  exact IsPrefix.trans (by decide) (List.isPrefixOf_iff_prefix.1 h)

theorem isDeclaration_of_define {f : Function} (h : startsWith "define ".toList f.header.toList) :
    f.isDeclaration = false := by
  by_contra hd
  rw [Bool.not_eq_false, Function.isDeclaration, String.startsWith_string_iff] at hd
  obtain ⟨t, ht⟩ := isPrefixOf_iff_prefix.1 h
  obtain ⟨u, hu⟩ := hd
  rw [← ht] at hu
  have h3 : ("declare".toList ++ u).take 3 = ("define ".toList ++ t).take 3 := by rw [hu]
  exact absurd h3 (by simp)

theorem line_header {name header : String} (opens : Bool) (ht : Titled name header)
    (hw : startsWith (if opens then "define ".toList else "declare ".toList) header.toList)
    (m : IrModule) :
    ParseState.line ⟨m, none⟩ header.toList =
      .ok ⟨{ m with functions := m.functions.insert name ⟨name, header, []⟩ },
        if opens && header.toList.getLast? = some '\x7b' then some (.start name header)
        else none⟩ := by
  have hd : isHeader header.toList ∧ startsWith "define ".toList header.toList = opens := by
    obtain ⟨t, ht⟩ := isPrefixOf_iff_prefix.1 hw
    rw [← ht]
    cases opens <;> exact ⟨rfl, rfl⟩
  refine (ParseState.topLine_eq ⟨m, none⟩ header.toList).trans ((if_pos hd.1).trans ?_)
  rw [ht.named, ← hd.2]
  unfold ParseState.opened opensBody
  rw [ht.trimmed, String.ofList_toList]
  rfl

end CallAtlas.Ir
