import CallAtlas.Proofs.Ir.OpenQuotes
import CallAtlas.Proofs.Link.Parts

/-!
# The references of concatenated arrays

An array text is `framed` if no quote and no sigil stands before its type, nor between the type and
the next bracket behind it. Edits keep a text framed, `framed_loose`. The concatenation of two tidy
framed texts is tidy and framed, and it refers to nothing that the two do not refer to:
`joinArrays_references`.
-/

namespace CallAtlas.Link

open Ir Text List

variable {head s s' u : List Char}

variable {head type gap body : List Char} {s : List Char} {a : ArrayText}

/-- A character outside quotes and references. -/
def isPlain (c : Char) : Bool := c ≠ '"' && !isSigil c

theorem isPlain_iff {c : Char} : isPlain c ↔ c ≠ '"' ∧ isSigil c = false := by simp [isPlain]

/-- Whether no quote and no sigil stands between an array type and the next bracket behind it. -/
def gapPlain (type : List Char) : Bool :=
  match closingOffset? type with
  | none => true
  | some k => ((type.drop (k + 1)).takeWhile (· ≠ '[')).all isPlain

/-- Whether no quote and no sigil stands before the array type, nor between it and the next bracket
behind it. -/
def framed (s : List Char) : Bool :=
  match findArray? [] s with
  | none => s.all isPlain
  | some (before, _, type, _) => before.all isPlain && gapPlain type

/-! ## Framed texts under edits -/

theorem all_isPlain : s.all isPlain ↔ ∀ c ∈ s, c ≠ '"' ∧ isSigil c = false := by
  simp only [all_eq_true, isPlain_iff]

/-- A plain text is left alone. -/
theorem plain_edit {p : Char → Bool} (hu : u.all isPlain) (h : Edit p (u ++ s) s') :
    ∃ t, s' = u ++ t ∧ Edit p s t := by
  refine h.run_inv fun c hc => ?_
  obtain ⟨hq, hs⟩ := all_isPlain.1 hu c hc
  refine ⟨hq, fun h => ?_⟩
  rw [hs] at h
  cases h

/-- A text without sigils is left alone. -/
theorem sigilless_edit {p : Char → Bool} (h : Edit p s s') (hs : ∀ c ∈ s, isSigil c = false) :
    s' = s := by
  induction h with
  | nil => rfl
  | char _ _ ih => rw [ih fun c hc => hs c (mem_cons_of_mem _ hc)]
  | literal _ _ ih => rw [ih fun c hc => hs c (mem_append_right _ (mem_cons_of_mem _ hc))]
  | token hc =>
    rw [hs _ mem_cons_self] at hc
    cases hc

theorem isDelimiter_closer : isDelimiter ']' := by decide

theorem closingOffset?_edit {p : Char → Bool} (h : Edit p ('[' :: s) ('[' :: s')) {k : Nat}
    (hk : closingOffset? ('[' :: s) = some k) :
    ∃ u v u' v', '[' :: s = '[' :: u ++ ']' :: v ∧ '[' :: s' = '[' :: u' ++ ']' :: v' ∧
      Edit p v v' ∧ u.length + 1 = k ∧ closingOffset? ('[' :: s') = some (u'.length + 1) := by
  obtain ⟨u, v, rfl, rfl, ha, hu⟩ := exists_closing hk
  obtain ⟨w, hw, hw'⟩ := h.cons_inv (by decide) (fun h => absurd h (by decide))
  obtain rfl := (cons.inj hw).2
  obtain ⟨u', w, rfl, hu', hw⟩ := hw'.split (ha.terminated hw'.terminated.1) isDelimiter_closer
  obtain ⟨v', rfl, hv'⟩ := hw.cons_inv (by decide) (fun h => absurd h (by decide))
  refine ⟨u, v, u', v', rfl, rfl, hv', rfl,
    closingOffset?_closed (mark_append hu'.terminated.2) ?_ v'⟩
  rw [(Edit.char (by decide) hu').upToSquare_eq]
  exact hu

theorem gapPlain_split {v : List Char} (hs : s = u ++ ']' :: v)
    (hk : closingOffset? s = some u.length) :
    gapPlain s = (v.takeWhile (· ≠ '[')).all isPlain := by
  rw [gapPlain, hk, hs]
  simp only [drop_behind]

section tail

variable {p : Char → Bool} {s s' t t' : List Char}

theorem gapPlain_tail (h : Edit p ('[' :: s) ('[' :: s')) (ht : Tail t) (ht' : Tail t')
    (htt : t = [] → t' = []) (hg : gapPlain ('[' :: s ++ t)) : gapPlain ('[' :: s' ++ t') := by
  have hk' := closingOffset?_tail h.terminated.2 ht'
  cases hc : closingOffset? ('[' :: s') with
  | none => rw [gapPlain, hk', hc]
  | some k =>
    obtain ⟨x', v', x, v, hs', hs, hv, rfl, hc'⟩ := closingOffset?_edit h.symm hc
    have hk := closingOffset?_tail h.terminated.1 ht
    rw [gapPlain_split (u := '[' :: x) (v := v ++ t) (by rw [hs]; simp) (hk.trans hc')] at hg
    rw [gapPlain_split (u := '[' :: x') (v := v' ++ t') (by rw [hs']; simp) (hk'.trans hc)]
    by_cases hm : '[' ∈ v
    · obtain ⟨gap, init, rfl, hgo⟩ := eq_append_cons_of_mem hm
      rw [append_assoc, cons_append, (takeWhile_gap hgo _).1] at hg
      obtain ⟨v1, rfl, hv1⟩ := plain_edit hg hv.symm
      obtain ⟨init', rfl, -⟩ := hv1.cons_inv (by decide) (fun h => absurd h (by decide))
      rw [append_assoc, cons_append, (takeWhile_gap hgo _).1]
      exact hg
    · have hall : ∀ c ∈ v, decide (c ≠ '[') :=
        fun c hc => decide_eq_true (ne_of_mem_of_not_mem hc hm)
      rw [takeWhile_append_of_pos hall, all_append, Bool.and_eq_true] at hg
      cases ht with
      | nil =>
        obtain rfl := htt rfl
        have hv' := hv.symm
        rw [← append_nil v] at hv'
        obtain ⟨w, rfl, hw⟩ := plain_edit hg.1 hv'
        cases hw
        rw [append_nil, append_nil, takeWhile_eq_self_iff.2 hall]
        exact hg.1
      | quote => exact absurd rfl (all_isPlain.1 hg.2 '"' (by simp)).1

theorem isHeadChar_all (h : ∀ c ∈ head, isHeadChar c) :
    ∀ c ∈ '[' :: head, c ≠ '"' ∧ isSigil c = false := by
  intro c hc
  rcases mem_cons.1 hc with rfl | hc
  · decide
  · exact (isHeadChar_plain (h c hc)).1

theorem quote_notMem {before head : List Char} (hb : before.all isPlain)
    (hh : ∀ c ∈ head, isHeadChar c) : '"' ∉ before ++ '[' :: head := by
  intro hm
  rcases mem_append.1 hm with hm | hm
  · exact (all_isPlain.1 hb _ hm).1 rfl
  · exact (isHeadChar_all hh _ hm).1 rfl

/-- An array type behind a plain text is found at the same place. -/
theorem findArray?_edit (h : Edit p s s') (ht : Tail t) (t' : List Char)
    {before type inner : List Char} {count : Nat}
    (hfa : findArray? [] (s ++ t) = some (before, count, type, inner)) (hb : before.all isPlain) :
    ∃ x x' inner', type = '[' :: x ++ t ∧ Edit p ('[' :: x) ('[' :: x') ∧
      findArray? [] (s' ++ t') = some (before, count, '[' :: x' ++ t', inner') := by
  obtain ⟨pre, hpre, hst, hty, hn⟩ := findArray?_eq_some hfa
  obtain rfl : before = pre := hpre
  obtain ⟨head, rfl, hhead, -, hreads⟩ := arrayHead?_eq_some hty
  obtain ⟨rest, rfl, rfl⟩ := ht.split (quote_notMem hb hhead) (by rw [hst, append_assoc])
  rw [append_assoc] at h
  obtain ⟨s1, rfl, h1⟩ := plain_edit hb h
  obtain ⟨rest', rfl, -⟩ := plain_edit (all_isPlain.2 (isHeadChar_all hhead)) h1
  have hfirst := findArray?_first before (hreads (rest' ++ t'))
    (fun u v huv hv => arrayHead?_eq_none hv (hn u v huv hv) _) []
  refine ⟨head ++ rest, head ++ rest', trimLeft (rest' ++ t'), by simp, h1, ?_⟩
  rw [append_assoc, append_assoc, hfirst]
  simp

theorem framed_tail (h : Edit p s s') (ht : Tail t) (ht' : Tail t') (htt : t = [] → t' = [])
    (hf : framed (s ++ t)) : framed (s' ++ t') := by
  unfold framed at hf
  cases hfa : findArray? [] (s ++ t) with
  | none =>
    simp only [hfa] at hf
    cases ht with
    | nil =>
      obtain rfl := htt rfl
      rw [append_nil] at hfa hf
      rw [← append_nil s] at h
      obtain ⟨t, rfl, ht⟩ := plain_edit hf h
      cases ht
      unfold framed
      rw [append_nil, append_nil, hfa]
      exact hf
    | quote => exact absurd rfl (all_isPlain.1 hf '"' (by simp)).1
  | some v =>
    obtain ⟨before, count, type, inner⟩ := v
    simp only [hfa, Bool.and_eq_true] at hf
    obtain ⟨x, x', inner', rfl, hx, hfa'⟩ := findArray?_edit h ht t' hfa hf.1
    unfold framed
    rw [hfa']
    simp only [Bool.and_eq_true]
    exact ⟨hf.1, gapPlain_tail hx ht ht' htt hf.2⟩

theorem framed_loose (h : LooseEdit p s s') (hf : framed s) : framed s' := by
  cases h with
  | closed h =>
    rw [← append_nil s] at hf
    rw [← append_nil s']
    exact framed_tail h .nil .nil (fun h => h) hf
  | opened h hr hr' => exact framed_tail h (.quote hr) (.quote hr') (fun h => absurd h (by simp)) hf

end tail

/-! ## The layout of a framed array -/

/-- A text that is an array with an initializer: what stands before the array type, the head of the
type, the type of an element, what stands before the initializer, its elements, and what stands
behind it. -/
structure Layout (s before head type gap body behind : List Char) : Prop where
  text : s = before ++ ('[' :: head ++ (type ++ ']' :: (gap ++ '[' :: (body ++ ']' :: behind))))
  before_plain : before.all isPlain
  /-- No array type starts before. -/
  first : ∀ u t, before = u ++ t → t ≠ [] → ∀ x, arrayHead? (t ++ '[' :: x) = none
  head_chars : ∀ c ∈ head, isHeadChar c
  reads : ∃ count, ∀ t, arrayHead? ('[' :: head ++ t) = some (count, trimLeft t)
  type_terminated : terminated false type
  closes : upToSquare ('[' :: head ++ type)
  gap_plain : gap.all isPlain
  gap_open : '[' ∉ gap
  body_terminated : terminated false body
  behind_terminated : terminated false behind

theorem terminated_append_plain (hu : ∀ c ∈ u, c ≠ '"' ∧ isSigil c = false) (s : List Char) :
    terminated false (u ++ s) = terminated false s :=
  terminated_append (terminated_plain fun c hc => (hu c hc).1) s

theorem Parts.framed_iff (h : Parts s a head type gap body) :
    framed s ↔ a.before.all isPlain ∧ gap.all isPlain := by
  have hk := h.closing (gap ++ '[' :: (body ++ ']' :: a.behind))
  rw [framed, h.findArray?]
  simp only [gapPlain, hk, (behind_type head (le_refl type.length) _).1,
    (takeWhile_gap h.gap_open _).1, Bool.and_eq_true]

/-- A framed text that can be divided is laid out before its tail. -/
theorem Parts.layout {t : List Char} (h : Parts (s ++ t) a head type gap body)
    (hs : terminated false s) (ht : Tail t)
    (hf : framed (s ++ t)) :
    ∃ behind, Layout s a.before head type gap body behind ∧ a.behind = behind ++ t := by
  obtain ⟨hbefore, hgap⟩ := h.framed_iff.1 hf
  obtain ⟨r1, rfl, h1⟩ :=
    ht.split (quote_notMem hbefore h.head_chars) (by rw [h.text, append_assoc])
  rw [append_assoc, terminated_append_plain (all_isPlain.1 hbefore),
    terminated_append_plain (isHeadChar_all h.head_chars)] at hs
  obtain ⟨r2, rfl, h2⟩ := ht.closer hs h.type_apart h1.symm
  have htype := h.type_apart.terminated hs
  rw [terminated_append htype, terminated_cons (by decide)] at hs
  obtain ⟨r3, rfl, h3⟩ :=
    ht.split (@quote_notMem gap [] hgap (by simp)) (h2.symm.trans (append_cons ..))
  rw [append_assoc, terminated_append_plain (all_isPlain.1 hgap), singleton_append,
    terminated_cons (by decide)] at hs
  obtain ⟨behind, rfl, h4⟩ := ht.closer hs h.body_apart h3.symm
  have hbody := h.body_apart.terminated hs
  rw [terminated_append hbody] at hs
  exact ⟨behind, ⟨by simp, hbefore, h.first, h.head_chars, ⟨_, h.reads⟩, htype, h.closes, hgap,
    h.gap_open, hbody, hs⟩, h4⟩

theorem Parts.layout_whole (h : Parts s a head type gap body) (hs : terminated false s)
    (hf : framed s) :
    Layout s a.before head type gap body a.behind := by
  rw [← append_nil s] at h hf
  obtain ⟨behind, hl, hb⟩ := h.layout hs .nil hf
  rwa [hb, append_nil]

/-! ## Concatenation -/

section reader

variable {α : Type} {R : Reader α}

theorem references_plain_cons (hR : Sighted R) {d : Char} (hd : isPlain d) (s : List Char) :
    references R (d :: s) = references R s ∧ (Tidy R (d :: s) ↔ Tidy R s) :=
  references_plain_append hR (forall_mem_singleton.2 (isPlain_iff.1 hd)) s

theorem Layout.references_eq (hR : Sighted R) {before behind : List Char}
    (h : Layout s before head type gap body behind) :
    references R s = references R type ++ (references R body ++ references R behind) ∧
      (Tidy R s ↔ Tidy R type ∧ Tidy R body ∧ Tidy R behind) := by
  obtain ⟨h1, h2⟩ := references_plain_append hR (all_isPlain.1 h.before_plain)
    ('[' :: head ++ (type ++ ']' :: (gap ++ '[' :: (body ++ ']' :: behind))))
  obtain ⟨h3, h4⟩ := references_plain_append hR (isHeadChar_all h.head_chars)
    (type ++ ']' :: (gap ++ '[' :: (body ++ ']' :: behind)))
  obtain ⟨h5, h6⟩ := references_cut hR h.type_terminated (c := ']') (by decide)
    (gap ++ '[' :: (body ++ ']' :: behind))
  obtain ⟨h7, h8⟩ :=
    references_plain_append hR (all_isPlain.1 h.gap_plain) ('[' :: (body ++ ']' :: behind))
  obtain ⟨h9, h10⟩ := references_plain_cons hR (d := '[') (by decide) (body ++ ']' :: behind)
  obtain ⟨h11, h12⟩ := references_cut hR h.body_terminated (c := ']') (by decide) behind
  rw [h.text, h1, h3, h5, h7, h9, h11, h2, h4, h6, h8, h10, h12]
  exact ⟨rfl, Iff.rfl⟩

theorem references_intercalate (hR : Sighted R) {es : List (List Char)}
    (hes : ∀ e ∈ es, terminated false e) :
    terminated false ([',', ' '].intercalate es) ∧
      ((∀ e ∈ es, Tidy R e) → Tidy R ([',', ' '].intercalate es)) ∧
      ∀ w ∈ references R ([',', ' '].intercalate es), ∃ e ∈ es, w ∈ references R e := by
  refine forall_intercalate (P := fun u => terminated false u ∧ ((∀ e ∈ es, Tidy R e) → Tidy R u) ∧
    ∀ w ∈ references R u, ∃ e ∈ es, w ∈ references R e) ?_ ?_ fun e he =>
      ⟨hes e he, fun h => h e he, fun w hw => ⟨e, he, hw⟩⟩
  · rw [references_nil]
    exact ⟨rfl, fun _ => tidy_nil, fun w hw => absurd hw not_mem_nil⟩
  · rintro u v ⟨hu, htu, hru⟩ ⟨hv, htv, hrv⟩
    obtain ⟨h1, h2⟩ := references_cut hR hu (c := ',') (by decide) (' ' :: v)
    obtain ⟨h3, h4⟩ := references_plain_cons hR (d := ' ') (by decide) v
    rw [h2, h4, h1, h3, terminated_append hu, terminated_cons (by decide),
      terminated_cons (by decide)]
    exact ⟨hv, fun h => ⟨htu h, htv h⟩, fun w hw => (mem_append.1 hw).elim (hru w) (hrv w)⟩

end reader

/-- The concatenation of two arrays is laid out like the first. -/
theorem Layout.append {b : ArrayText} {head' type' gap' body' : List Char}
    (h : Layout s a.before head type gap body a.behind) (ha : Parts s a head type gap body)
    (hb : Parts s' b head' type' gap' body')
    (he : terminated false ([',', ' '].intercalate (a.append b).elements)) :
    Layout (a.append b).render a.before (natDigits (a.append b).count ++ " x ".toList)
      (trim type) [' '] ([',', ' '].intercalate (a.append b).elements) a.behind ∧
      framed (a.append b).render := by
  have hp := ha.append hb
  exact ⟨⟨hp.text, h.before_plain, hp.first, hp.head_chars, ⟨_, hp.reads⟩,
    terminated_trim h.type_terminated, hp.closes,
    by decide, hp.gap_open, he, h.behind_terminated⟩, hp.framed_iff.2 ⟨h.before_plain, by decide⟩⟩

theorem Layout.terminated {before behind : List Char}
    (h : Layout s before head type gap body behind) :
    Ir.terminated false s := by
  rw [h.text, terminated_append_plain (all_isPlain.1 h.before_plain),
    terminated_append_plain (isHeadChar_all h.head_chars),
    terminated_append h.type_terminated, terminated_cons (by decide),
    terminated_append_plain (all_isPlain.1 h.gap_plain),
    terminated_cons (by decide), terminated_append h.body_terminated]
  exact h.behind_terminated

theorem joinArrays_references {α : Type} {R : Reader α} (hR : Sighted R)
    {first second name text : String}
    (h : joinArrays first second name = .ok text) (h₁ : terminated false first.toList)
    (h₂ : terminated false second.toList) (hf₁ : framed first.toList) (hf₂ : framed second.toList) :
    terminated false text.toList ∧
      (Tidy R first.toList → Tidy R second.toList → Tidy R text.toList) ∧ framed text.toList ∧
      ∀ w ∈ references R text.toList, w ∈ references R first.toList ∨
      w ∈ references R second.toList := by
  obtain ⟨a, b, ha, hb, htext⟩ := joinArrays_ok h
  obtain ⟨head, type, gap, body, hpa⟩ := exists_parts ha
  obtain ⟨head', type', gap', body', hpb⟩ := exists_parts hb
  have hl := hpa.layout_whole h₁ hf₁
  have hl' := hpb.layout_whole h₂ hf₂
  obtain ⟨hr, htd⟩ := hl.references_eq hR
  obtain ⟨hr', htd'⟩ := hl'.references_eq hR
  -- every element is one of the first or of the second
  have hes : ∀ e ∈ a.elements ++ b.elements, terminated false e ∧
      (Tidy R body → Tidy R body' → Tidy R e) ∧
      ∀ w ∈ references R e, w ∈ references R body ∨ w ∈ references R body' := by
    intro e he
    rcases mem_append.1 he with he | he
    · obtain ⟨h3, h4, h5⟩ := references_fields hR hl.body_terminated e (hpa.elements ▸ he)
      exact ⟨h3, fun h _ => h4 h, fun w hw => .inl (h5 w hw)⟩
    · obtain ⟨h3, h4, h5⟩ := references_fields hR hl'.body_terminated e (hpb.elements ▸ he)
      exact ⟨h3, fun _ h => h4 h, fun w hw => .inr (h5 w hw)⟩
  obtain ⟨hi1, hi2, hi3⟩ := references_intercalate hR fun e he => (hes e he).1
  obtain ⟨hlr, hfr⟩ := hl.append hpa hpb hi1
  obtain ⟨hrr, htr⟩ := hlr.references_eq hR
  obtain ⟨htt1, htt2⟩ := references_trim hR hl.type_terminated
  rw [htext, htr, hrr, htd, htd', hr, hr', htt1, htt2]
  refine ⟨hlr.terminated, fun h h' => ⟨h.1, hi2 fun e he => (hes e he).2.1 h.2.1 h'.2.1, h.2.2⟩,
    hfr, fun w hw => ?_⟩
  simp only [mem_append] at hw ⊢
  rcases hw with hw | hw | hw
  · exact .inl (.inl hw)
  · obtain ⟨e, he, hwe⟩ := hi3 w hw
    rcases (hes e he).2.2 w hwe with hw | hw
    · exact .inl (.inr (.inl hw))
    · exact .inr (.inr (.inl hw))
  · exact .inl (.inr (.inr hw))

end CallAtlas.Link
