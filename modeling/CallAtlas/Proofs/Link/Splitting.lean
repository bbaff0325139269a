import CallAtlas.Proofs.Link.Concat

/-!
# Which arrays can be joined

Two arrays can be joined exactly if each of them can be divided into its parts: `joinArrays_isOk`.
Whether a text can be divided is the same before and after a join, provided that it is `Clear`, that
is, on one line and either framed or without references: a change of references keeps that,
`Clear.rewritten`, and a concatenation of arrays can be divided again, `Clear.joinArrays`.
-/

namespace CallAtlas.Link

open Ir Text

variable {s : List Char}

/-- Whether a text can be divided into the parts of an array. -/
def splits (s : List Char) : Bool := (splitArray s "").isOk

theorem splits_iff (name : String) : splits s ↔ ∃ a, splitArray s name = .ok a := by
  have hname {name name' : String} {a : ArrayText} (h : splitArray s name = .ok a) :
      splitArray s name' = .ok a := by
    obtain ⟨head, type, gap, body, hp⟩ := exists_parts h
    exact hp.splitArray name'
  unfold splits
  constructor
  · intro h
    cases ha : splitArray s "" with
    | error e => rw [ha] at h; cases h
    | ok a => exact ⟨a, hname ha⟩
  · rintro ⟨a, ha⟩
    rw [hname ha]
    rfl

theorem joinArrays_isOk {first second name : String} :
    (∃ text, joinArrays first second name = .ok text) ↔ splits first.toList ∧
    splits second.toList := by
  rw [splits_iff name, splits_iff name]
  constructor
  · rintro ⟨text, h⟩
    obtain ⟨a, b, ha, hb, -⟩ := joinArrays_ok h
    exact ⟨⟨a, ha⟩, ⟨b, hb⟩⟩
  · rintro ⟨⟨a, ha⟩, ⟨b, hb⟩⟩
    exact ⟨_, joinArrays_eq ha hb⟩

/-! ## Changes of references -/

namespace Layout

variable {s s' before head type gap body behind : List Char}

/-- A layout is a division, whatever follows. -/
theorem parts (h : Layout s before head type gap body behind) (hc : upToSquare ('[' :: body))
    (t : List Char) :
    ∃ count, Parts (s ++ t) ⟨before, count, trim type, fields body, behind ++ t⟩ head type gap
      body := by
  obtain ⟨count, hreads⟩ := h.reads
  refine ⟨count, ?_, h.first, h.head_chars, hreads, mark_append h.type_terminated, h.closes,
    h.gap_open, mark_append h.body_terminated, hc, rfl, rfl⟩
  rw [h.text]
  simp

theorem edit {p : Char → Bool} (h : Layout s before head type gap body behind) (he : Edit p s s') :
    ∃ type' body' behind', Layout s' before head type' gap body' behind' ∧ Edit p body body' := by
  rw [h.text] at he
  have hhead : ('[' :: head).all isPlain := all_isPlain.2 (isHeadChar_all h.head_chars)
  obtain ⟨s1, rfl, he1⟩ := plain_edit h.before_plain he
  obtain ⟨s2, rfl, he2⟩ := plain_edit hhead he1
  obtain ⟨type', s3, rfl, htype, he3⟩ := he2.split h.type_terminated isDelimiter_closer
  obtain ⟨s4, rfl, he4⟩ := he3.cons_inv (by decide) (fun h => absurd h (by decide))
  obtain ⟨s5, rfl, he5⟩ := plain_edit h.gap_plain he4
  obtain ⟨s6, rfl, he6⟩ := he5.cons_inv (by decide) (fun h => absurd h (by decide))
  obtain ⟨body', s7, rfl, hbody, he7⟩ := he6.split h.body_terminated isDelimiter_closer
  obtain ⟨behind', rfl, hbehind⟩ := he7.cons_inv (by decide) (fun h => absurd h (by decide))
  refine ⟨type', body', behind',
    ⟨rfl, h.before_plain, h.first, h.head_chars, h.reads, htype.terminated.2, ?_,
    h.gap_plain, h.gap_open, hbody.terminated.2, hbehind.terminated.2⟩, hbody⟩
  have hc := h.closes
  rw [List.cons_append, upToSquare_bracket, squares_head h.head_chars] at hc ⊢
  rw [squares, htype.filter_mark outward_isSquare]
  exact hc

end Layout

/-- Whether a change of references leaves the brackets of an array alone: it is framed, or it cannot
be divided and has no references. -/
def bracketsFixed (s : List Char) : Bool := framed s || (s.all (!isSigil ·) && !splits s)

/-- The text of an array on one line, with brackets that a change of references leaves alone. -/
def Clear (s : List Char) : Prop := bracketsFixed s ∧ '\n' ∉ s

instance (s : List Char) : Decidable (Clear s) := inferInstanceAs (Decidable (_ ∧ _))

theorem bracketsFixed_iff :
    bracketsFixed s ↔ framed s ∨ (∀ c ∈ s, isSigil c = false) ∧ splits s = false := by
  simp [bracketsFixed]

theorem framed_of_bracketsFixed (h : bracketsFixed s) (hs : splits s) : framed s := by
  refine (bracketsFixed_iff.1 h).resolve_right fun hn => ?_
  rw [hs] at hn
  cases hn.2

theorem splits_loose {p : Char → Bool} {s s' : List Char} (h : LooseEdit p s s') (hf : framed s)
    (hs : splits s) : splits s' := by
  obtain ⟨u, u', t, t', rfl, rfl, he, ht⟩ : ∃ u u' t t', s = u ++ t ∧ s' = u' ++ t' ∧ Edit p u u' ∧
      Tail t := by
    cases h with
    | closed h => exact ⟨s, s', [], [], by simp, by simp, h, .nil⟩
    | opened h hr _ => exact ⟨_, _, _, _, rfl, rfl, h, .quote hr⟩
  obtain ⟨a, ha⟩ := (splits_iff "").1 hs
  obtain ⟨head, type, gap, body, hp⟩ := exists_parts ha
  obtain ⟨behind, hl, -⟩ := hp.layout he.terminated.1 ht hf
  obtain ⟨type', body', behind', hl', hb⟩ := hl.edit he
  have hb' : Edit p ('[' :: body) ('[' :: body') := .char (by decide) hb
  obtain ⟨count, hp'⟩ := hl'.parts (by rw [hb'.upToSquare_eq]; exact hp.body_closes) t'
  exact (splits_iff "").2 ⟨_, hp'.splitArray ""⟩

theorem Clear.rewritten {p : Char → Bool} {s s' : List Char} (hs : Clear s) (h : Rewritten p s s') :
    Clear s' ∧ splits s' = splits s := by
  rcases bracketsFixed_iff.1 hs.1 with hf | ⟨hn, -⟩
  · have hf' := framed_loose h.loose hf
    refine ⟨⟨bracketsFixed_iff.2 (.inl hf'), h.line⟩, Bool.eq_iff_iff.2 ⟨?_, ?_⟩⟩
    · exact splits_loose h.loose.symm hf'
    · exact splits_loose h.loose hf
  · rw [h.same hn]
    exact ⟨hs, rfl⟩

/-- Whether the text has an array type with no quote and no sigil before it, and no sigil and no
bracket behind it. -/
def unfilled (s : List Char) : Bool :=
  match findArray? [] s with
  | none => false
  | some (before, _, type, _) => before.all isPlain &&
      (closingOffset? type).any fun k => (type.drop (k + 1)).all fun c => !isSigil c && c ≠ '['

theorem unfilled_iff : unfilled s ↔ ∃ before count type inner k,
    findArray? [] s = some (before, count, type, inner) ∧ before.all isPlain ∧
      closingOffset? type = some k ∧ ∀ c ∈ type.drop (k + 1), isSigil c = false ∧ c ≠ '[' := by
  unfold unfilled
  cases findArray? [] s with
  | none => simp
  | some v =>
    obtain ⟨before, count, type, inner⟩ := v
    simp only [Bool.and_eq_true, Option.any_eq_true, List.all_eq_true, Bool.not_eq_true',
      decide_eq_true_eq]
    constructor
    · rintro ⟨hb, k, hk, hr⟩
      exact ⟨before, count, type, inner, k, rfl, hb, hk, hr⟩
    · rintro ⟨_, _, _, _, k, h, hb, hk, hr⟩
      cases h
      exact ⟨hb, k, hk, hr⟩

theorem unfilled_edit {p : Char → Bool} {s s' : List Char} (h : Edit p s s') (hs : unfilled s) :
    unfilled s' := by
  obtain ⟨before, count, type, inner, k, hfa, hb, hk, hr⟩ := unfilled_iff.1 hs
  rw [← List.append_nil s] at hfa
  obtain ⟨x, x', inner', rfl, hx, hfa'⟩ := findArray?_edit h .nil [] hfa hb
  simp only [List.append_nil] at hfa' hk hr
  obtain ⟨u, v, u', v', hu, hu', hv, rfl, hk'⟩ := closingOffset?_edit hx hk
  refine unfilled_iff.2 ⟨before, count, _, inner', _, hfa', hb, hk', ?_⟩
  have hd : ('[' :: x).drop (u.length + 1 + 1) = v := by rw [hu]; exact drop_behind ('[' :: u) v ']'
  have hd' : ('[' :: x').drop (u'.length + 1 + 1) = v' := by
    rw [hu']; exact drop_behind ('[' :: u') v' ']'
  rw [hd] at hr
  rw [hd', sigilless_edit hv fun c hc => (hr c hc).1]
  exact hr

theorem not_splits_of_unfilled (hs : unfilled s) : splits s = false := by
  obtain ⟨before, count, type, inner, k, hfa, -, hk, hr⟩ := unfilled_iff.1 hs
  have hnone : (type.drop (k + 1)).dropWhile (· ≠ '[') = [] :=
    List.dropWhile_eq_nil_iff.2 fun c hc => decide_eq_true (hr c hc).2
  simp only [splits, splitArray, hfa, hk, hnone]
  rfl

/-- Whether a change of references in a text with closed quotes leaves it alone whether the text can
be divided. -/
def settled (s : List Char) : Bool := bracketsFixed s || unfilled s

theorem settled_of_framed (h : framed s) : settled s := by
  rw [settled, bracketsFixed, h]
  rfl

theorem settled_edit {p : Char → Bool} {s s' : List Char} (h : Edit p s s') (hs : settled s) :
    settled s' := by
  rcases Bool.or_eq_true_iff.1 hs with hf | hu
  · refine Bool.or_eq_true_iff.2 (.inl (bracketsFixed_iff.2 ?_))
    rcases bracketsFixed_iff.1 hf with hf | hn
    · exact .inl (framed_loose (.closed h) hf)
    · rw [sigilless_edit h hn.1]
      exact .inr hn
  · exact Bool.or_eq_true_iff.2 (.inr (unfilled_edit h hu))

theorem framed_of_settled (hs : settled s) (h : splits s) : framed s := by
  rcases Bool.or_eq_true_iff.1 hs with hf | hu
  · exact framed_of_bracketsFixed hf h
  · rw [not_splits_of_unfilled hu] at h
    cases h

/-! ## Concatenation -/

theorem newline_notMem_natDigits (n : Nat) : '\n' ∉ natDigits n ++ " x ".toList := by
  intro h
  rcases List.mem_append.1 h with h | h
  · exact absurd (isAsciiDigit_of_mem_natDigits h) (by decide)
  · revert h
    decide

theorem mem_intercalate {es : List (List Char)} :
    ∀ c ∈ [',', ' '].intercalate es, c = ',' ∨ c = ' ' ∨ ∃ e ∈ es, c ∈ e := by
  refine forall_intercalate (P := fun u => ∀ c ∈ u, c = ',' ∨ c = ' ' ∨ ∃ e ∈ es, c ∈ e)
    (fun c h => absurd h List.not_mem_nil) (fun hu hv c h => ?_) fun e he c hc =>
      .inr (.inr ⟨e, he, hc⟩)
  simp only [List.mem_append, List.mem_cons] at h
  rcases h with h | h | h | h
  · exact hu c h
  · exact .inl h
  · exact .inr (.inl h)
  · exact hv c h

theorem mem_of_mem_fields : ∀ f ∈ fields s, ∀ c ∈ f, c ∈ s := by
  refine forall_fields (Q := fun u => ∀ c ∈ u, c ∈ s) (fun h c hc => h c (mem_of_mem_trim hc))
    (fun _ h => ?_)
    (fun c hc => hc)
  simp only [List.mem_append, List.mem_cons] at h
  exact ⟨fun c hc => h c (.inl hc), fun c hc => h c (.inr (.inr hc))⟩

theorem Clear.joinArrays {first second name text : String} (h₁ : Clear first.toList)
    (h₂ : Clear second.toList)
    (h : joinArrays first second name = .ok text) : Clear text.toList ∧ splits text.toList := by
  obtain ⟨a, b, ha, hb, htext⟩ := joinArrays_ok h
  obtain ⟨head, type, gap, body, hpa⟩ := exists_parts ha
  obtain ⟨head', type', gap', body', hpb⟩ := exists_parts hb
  have hf := hpa.framed_iff.1 (framed_of_bracketsFixed h₁.1 ((splits_iff name).2 ⟨a, ha⟩))
  have hp := hpa.append hpb
  have hn1 := h₁.2
  have hn2 := h₂.2
  rw [hpa.text] at hn1
  rw [hpb.text] at hn2
  rw [htext]
  refine ⟨⟨bracketsFixed_iff.2 (.inl (hp.framed_iff.2 ⟨hf.1, by decide⟩)), ?_⟩,
    (splits_iff name).2 ⟨_, hp.splitArray name⟩⟩
  -- every character is one of the two texts or of the new head
  have hint : '\n' ∉ [',', ' '].intercalate (a.append b).elements := by
    intro hm
    rcases mem_intercalate _ hm with h | h | ⟨e, he, hm⟩
    · cases h
    · cases h
    · rcases List.mem_append.1 he with he | he
      · exact hn1 (by simp [mem_of_mem_fields e (hpa.elements ▸ he) _ hm])
      · exact hn2 (by simp [mem_of_mem_fields e (hpb.elements ▸ he) _ hm])
  have hhead := newline_notMem_natDigits (a.append b).count
  rw [hp.text]
  simp only [List.mem_append, List.mem_cons, not_or] at hn1 hhead ⊢
  obtain ⟨hbefore, -, htype, -, -, -, -, -, hbehind⟩ := hn1
  exact ⟨hbefore, ⟨by decide, hhead⟩, fun hm => htype (mem_of_mem_trim hm), by decide,
    ⟨by decide, List.not_mem_nil⟩, by decide, hint, by decide, hbehind⟩

end CallAtlas.Link
