import CallAtlas.Proofs.Ir.RoundTrip

/-!
# The lines of a body

The functions of a text are those of its headers, each with the lines up to the closing brace or the
end of the text: `functions_run`. So no line of a body that is neither blank nor a comment is lost,
`body_lines_kept`.
-/

namespace CallAtlas.Ir

open Text List

variable {l : List Char} {ls : List (List Char)} {m : IrModule} {s : ParseState} {name : String}

/-! ## What the text holds -/

/-- The headers of the functions in some lines, each with the lines up to the closing brace if it
opens a body. -/
def headers : List (List Char) → List (List Char × Option (List (List Char)))
  | [] => []
  | l :: ls =>
    if opensBody l then
      (l, some (ls.takeWhile (!closesBody ·))) :: headers (ls.dropWhile (!closesBody ·)).tail
    else if isHeader l then (l, none) :: headers ls
    else headers ls
termination_by ls => ls.length
decreasing_by
  · have := (dropWhile_sublist (l := ls) (!closesBody ·)).length_le
    simp only [length_tail, length_cons]
    omega
  · simp
  · simp

theorem mem_of_mem_headers {header : List Char} {body : List (List Char)}
    (h : (header, some body) ∈ headers ls) :
    body ⊆ ls := by
  fun_induction headers ls with
  | case1 => cases h
  | case2 l ls _ ih =>
    rcases mem_cons.1 h with h | h
    · cases h
      exact subset_cons_of_subset _ (takeWhile_sublist _).subset
    · exact fun l hl => mem_cons_of_mem _ ((dropWhile_sublist _).subset (mem_of_mem_tail (ih h hl)))
  | case3 l ls _ _ ih =>
    rcases mem_cons.1 h with h | h
    · cases h
    · exact subset_cons_of_subset _ (ih h)
  | case4 l ls _ _ ih => exact subset_cons_of_subset _ (ih h)

/-- The name in a line that opens a block. -/
def labelOf? (l : List Char) : Option String := if startsWith [' '] l then none else label? l

/-! ## Blocks -/

/-- The blocks that a line opens, with their labels. -/
def labelled (blocks : List Block) : List (String × String) :=
  blocks.filterMap fun k => k.labelLine.map (k.label, ·)

theorem labelled_modifyLast {f : Block → Block}
    (hf : ∀ k, (f k).label = k.label ∧ (f k).labelLine = k.labelLine)
    (blocks : List Block) : labelled (modifyLast f blocks) = labelled blocks := by
  cases blocks using reverseRecOn with
  | nil => rfl
  | append_singleton blocks k =>
    obtain ⟨h1, h2⟩ := hf k
    rw [modifyLast_concat, labelled, filterMap_append, filterMap_cons, h1, h2, labelled,
      filterMap_append, filterMap_cons]

theorem labelled_read (b : OpenBody) (l : List Char) :
    labelled (b.read l).blocks = labelled b.blocks ++
      ((labelOf? l).map (·, String.ofList l)).toList := by
  unfold OpenBody.read labelOf?
  cases (if startsWith [' '] l then none else label? l) with
  | some label => simp [labelled, OpenBody.addLabel]
  | none =>
    rw [Option.map_none, Option.toList_none, append_nil]
    rcases b.addLine_cases l with ⟨-, d, hd⟩ | ⟨d, hd⟩
    · rw [hd, labelled_modifyLast]
      exact fun k => ⟨rfl, rfl⟩
    · rw [hd, labelled_modifyLast]
      · split_ifs with h
        · rw [isEmpty_iff.1 h]
          rfl
        · rfl
      · exact fun k => ⟨rfl, rfl⟩

theorem labelled_readAll (b : OpenBody) (ls : List (List Char)) :
    labelled (ls.foldl OpenBody.read b).blocks =
      labelled b.blocks ++ ls.filterMap fun l => (labelOf? l).map (·, String.ofList l) := by
  induction ls generalizing b with
  | nil => simp
  | cons l ls ih =>
    rw [foldl_cons, ih, labelled_read, append_assoc]
    cases h : labelOf? l <;> simp [h]

/-! ## Functions -/

/-- The function with the header and the code lines of its body. -/
def readFunction (name : String) (h : List Char × Option (List (List Char))) : Function :=
  (((h.2.getD []).filter isCode).foldl OpenBody.read
    (.start name (String.ofList (trimRight h.1)))).function

def namedFunction? (h : List Char × Option (List (List Char))) : Option (String × Function) :=
  (functionName h.1).toOption.map fun name => (name, readFunction name h)

theorem namedFunction?_eq_some {h : List Char × Option (List (List Char))} {f : Function} :
    namedFunction? h = some (name, f) ↔ functionName h.1 = .ok name ∧ readFunction name h = f := by
  unfold namedFunction?
  cases functionName h.1 with
  | error e => exact ⟨nofun, nofun⟩
  | ok n =>
    simp only [Except.toOption, Option.map_some, Option.some.injEq, Prod.mk.injEq, Except.ok.injEq]
    exact and_congr_right fun hn => by rw [hn]

theorem OpenBody.name_readAll (b : OpenBody) (ls : List (List Char)) :
    (ls.foldl read b).name = b.name := by
  induction ls generalizing b with
  | nil => rfl
  | cons l ls ih => rw [foldl_cons, ih, (b.read_named l).1]

/-- The lines of a body, up to the closing brace or the end of the text. -/
theorem foldlM_body {b b' : OpenBody}
    (hb : b' = ((ls.takeWhile (!closesBody ·)).filter isCode).foldl OpenBody.read b)
    (h : ls.foldlM ParseState.line ⟨m, some b⟩ = .ok s) :
    ∃ s', (ls.dropWhile (!closesBody ·)).tail.foldlM ParseState.line
      ⟨{ m with functions := m.functions.insert b'.name b'.function }, none⟩ = .ok s' ∧
      s'.closeBody = s.closeBody := by
  rw [← takeWhile_append_dropWhile (p := (!closesBody ·)) (l := ls), foldlM_append,
    foldlM_inside fun l hl => by simpa using mem_takeWhile_imp hl, ← hb] at h
  have h : (ls.dropWhile (!closesBody ·)).foldlM ParseState.line ⟨m, some b'⟩ = .ok s := h
  cases hd : ls.dropWhile (!closesBody ·) with
  | nil =>
    rw [hd] at h
    obtain rfl := Except.ok.inj h
    exact ⟨_, rfl, rfl⟩
  | cons l r =>
    have hl := head?_dropWhile_not (!closesBody ·) ls
    rw [hd] at hl h
    have hl : closesBody l := by simpa using hl
    obtain ⟨s', hs', h⟩ := foldlM_cons_ok h
    obtain rfl := Except.ok.inj hs'
    rw [bodyLine_eq, if_pos hl] at h
    exact ⟨s, h, rfl⟩

theorem functions_plainLine (m : IrModule) (l : List Char) :
    (plainLine m l).functions = m.functions := by
  unfold plainLine
  split_ifs
  · rfl
  · rfl
  · cases entity? l with
    | none => rfl
    | some e => cases e <;> rfl

theorem functions_run (h : ls.foldlM ParseState.line ⟨m, none⟩ = .ok s) :
    s.closeBody.module.functions =
      m.functions.insertMany ((headers ls).filterMap namedFunction?) := by
  fun_induction headers ls generalizing m s with
  | case1 =>
    obtain rfl := Except.ok.inj h
    rfl
  | case2 l ls ho ih =>
    obtain ⟨s₁, hs₁, h⟩ := foldlM_cons_ok h
    have hh : isHeader l := by rw [isHeader, (Bool.and_eq_true_iff.1 ho).1]; rfl
    rw [show ParseState.line ⟨m, none⟩ l = _ from ParseState.topLine_eq _ l, if_pos hh] at hs₁
    obtain ⟨n, hn, rfl⟩ := map_eq_ok hs₁
    rw [ParseState.opened, if_pos ho] at h
    obtain ⟨s', h, hs⟩ := foldlM_body rfl h
    rw [← hs, ih h, OpenBody.name_readAll, filterMap_cons_some (namedFunction?_eq_some.2 ⟨hn, rfl⟩)]
    exact congrArg (Table.insertMany · _) (Table.insert_insert ..)
  | case3 l ls ho hh ih =>
    obtain ⟨s₁, hs₁, h⟩ := foldlM_cons_ok h
    rw [show ParseState.line ⟨m, none⟩ l = _ from ParseState.topLine_eq _ l, if_pos hh] at hs₁
    obtain ⟨n, hn, rfl⟩ := map_eq_ok hs₁
    rw [ParseState.opened, if_neg ho] at h
    rw [ih h, filterMap_cons_some (namedFunction?_eq_some.2 ⟨hn, rfl⟩)]
    rfl
  | case4 l ls ho hh ih =>
    obtain ⟨s₁, hs₁, h⟩ := foldlM_cons_ok h
    rw [show ParseState.line ⟨m, none⟩ l = _ from ParseState.topLine_eq _ l, if_neg hh] at hs₁
    obtain rfl := Except.ok.inj hs₁
    rw [ih h, functions_plainLine]

/-- The lines of a body that are neither blank nor comments are the lines of the function, in order,
and each of them that is a label opens a block of its own. -/
theorem body_lines_kept {text identifier : String}
    {before after : List (List Char × Option (List (List Char)))}
    {header : List Char} {body : List (List Char)} (h : IrModule.parse text identifier = .ok m)
    (hh : headers (lines text.toList) = before ++ (header, some body) :: after)
    (hn : functionName header = .ok name) (hl : ∀ e ∈ after, functionName e.1 ≠ .ok name) :
    ∃ f, m.functions.get? name = some f ∧
      lines (unlines ((f.blocks.flatMap Block.lines).map String.toList)) = body.filter isCode ∧
      labelled f.blocks = (body.filter isCode).filterMap fun l =>
  (labelOf? l).map (·, String.ofList l) := by
  rw [parse_eq] at h
  obtain ⟨s, hs, rfl⟩ := map_eq_ok h
  refine ⟨readFunction name (header, some body), ?_, ?_, labelled_readAll _ _⟩
  · have hnone : Table.find name (after.filterMap namedFunction?).reverse = none := by
      by_contra hne
      obtain ⟨f, hf⟩ := Option.ne_none_iff_exists'.1 hne
      obtain ⟨e, he, hf⟩ := mem_filterMap.1 (mem_reverse.1 (Table.mem_of_find hf))
      exact hl e he (namedFunction?_eq_some.1 hf).1
    rw [functions_run hs, hh, filterMap_append,
      filterMap_cons_some (namedFunction?_eq_some.2 ⟨hn, rfl⟩),
      Table.get?_insertMany, reverse_append, reverse_cons, append_assoc, Table.find_append, hnone]
    simp [Table.find]
  · have ht :=
      OpenBody.text_readAll (b := .start name (String.ofList (trimRight header)))
        (fun h => by cases h)
      (body.filter isCode)
    have hm : (header, some body) ∈ headers (lines text.toList) := by rw [hh]; simp
    exact (congrArg lines ht).trans (lines_unlines fun l hl =>
      breakless_of_mem_lines (mem_of_mem_headers hm (mem_filter.1 hl).1))

/-- The body of the sample: the instructions before the label stand in a block that no line
opens. -/
theorem sampleText_body :
    ∃ m f, IrModule.parse sampleText "unit" = .ok m ∧ m.functions.get? "f" = some f ∧
    lines (unlines ((f.blocks.flatMap Block.lines).map String.toList)) =
      ["  switch i32 %0, label %l [", "    i32 1, label %l", "  ]", "l: ; the only label",
        "  ret i32 0"].map String.toList ∧
    labelled f.blocks = [("l", "l: ; the only label")] := by
  have hh : headers (sampleLines.map String.toList) = [("declare void @g()  ".toList, none)] ++
      [("define i32 @f(i32 %0) \x7b".toList,
        some (((sampleLines.drop 13).take 6).map String.toList))] := by
    decide +kernel
  have hok : ((sampleLines.map String.toList).foldlM ParseState.line ⟨{ identifier := "unit" },
      none⟩).toOption.isSome := by
    decide +kernel
  cases hrun : (sampleLines.map String.toList).foldlM ParseState.line ⟨{ identifier := "unit" },
    none⟩ with
  | error e =>
    rw [hrun] at hok
    cases hok
  | ok s =>
    have hparse : IrModule.parse sampleText "unit" = .ok s.closeBody.module := by
      rw [parse_eq, lines_sampleText, hrun]
      rfl
    have hn : functionName "define i32 @f(i32 %0) \x7b".toList = .ok "f" := by decide +kernel
    obtain ⟨f, hf, hlines, hlabels⟩ :=
      body_lines_kept hparse (lines_sampleText ▸ hh) hn fun _ h => absurd h not_mem_nil
    exact ⟨_, f, hparse, hf, hlines.trans (by decide +kernel), hlabels.trans (by decide +kernel)⟩

end CallAtlas.Ir
