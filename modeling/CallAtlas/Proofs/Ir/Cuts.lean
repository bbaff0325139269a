import CallAtlas.Proofs.Ir.Pieces

/-!
# Changing the references of pieces

A change of references goes piece by piece: where a text is cut at a break outside quotes, changing
the whole is changing the pieces, `mapReferences_append`. So a change commutes with trimming,
`mapReferences_trim`, and with the division into fields, `fields_mapReferences`.
-/

namespace CallAtlas.Ir

open Text List

variable {c : Char}

/-! ## Reading numbers -/

theorem head?_any_isDecimal {r : List Char} (h : continuesWord r = false) :
    r.head?.any isDecimal = false := by
  cases r with
  | nil => rfl
  | cons c r =>
    by_contra hc
    have hw : isWord c := isDecimal_isWord (by simpa using hc)
    rw [continuesWord, hw] at h
    cases h

theorem numberedRead_number (k : Numbered) {ds r : List Char} (hne : ds ≠ [])
    (hds : ∀ c ∈ ds, isDecimal c) (hr : continuesWord r = false) :
    numberedRead (k.sigil :: ds ++ r) = some ((k, digitsValue ds), k.sigil :: ds, r) := by
  have hk : Numbered.ofSigil? k.sigil = some k := by cases k <;> rfl
  rw [cons_append, numberedRead, hk, run?_append hne hds (head?_any_isDecimal hr)]
  simp [hr]

theorem continuesWord_of_breaks {s : List Char} (h : breaks s) : continuesWord s = false := by
  cases s with
  | nil => rfl
  | cons c s => simpa [continuesWord] using (Bool.and_eq_true _ _ ▸ h : _ ∧ (!isWord c)).2

theorem Akin.continuesWord_eq {r r' : List Char} (h : Akin r r') :
    continuesWord r' = continuesWord r := by
  rcases h with h | ⟨h, h'⟩
  · cases r <;> cases r' <;> simp_all [continuesWord]
  · rw [continuesWord_of_breaks h, continuesWord_of_breaks h']

theorem sighted_numberedReader : Sighted numberedReader where
  token {s a t r} h := by
    obtain ⟨u, ht, hu⟩ := numberedRead_token h
    exact ⟨_, u, ht, isSigil_numbered a.1, hu⟩
  swap {s a t r r'} h hr := by
    obtain ⟨ds, -, rfl, ha, hne, hds, hw⟩ := numberedRead_eq_some h
    rw [← show (a.1, digitsValue ds) = a from ha ▸ rfl]
    exact numberedRead_number a.1 hne hds (hr.continuesWord_eq.trans hw)

/-! ## Changing piece by piece -/

section change

variable {α : Type} {R : Reader α} {p : Char → Bool} {f : α → List Char → List Char}

variable {c : Char} {s s' u : List Char}

theorem mapReferences_plain_append (hf : Replaces R p f)
    (hu : ∀ c ∈ u, c ≠ '"' ∧ (isSigil c → p c = false)) (v : List Char) :
    mapReferences R f (u ++ v) = u ++ mapReferences R f v :=
  mapReferences_skip (fun c hc => ⟨(hu c hc).1, hf.read_none (hu c hc).2⟩) v

theorem mapReferences_append (hR : Sighted R) (hf : Replaces R p f) {v : List Char}
    (hu : terminated false u)
    (hv : breaks v) : mapReferences R f (u ++ v) = mapReferences R f u ++ mapReferences R f v := by
  induction hu using hf.induction with
  | nil =>
    rw [mapReferences_nil]
    rfl
  | char c s hq hs hr ih =>
    rw [cons_append, mapReferences_cons R f hq (hR.read_none_of_headOf (headOf_of_append hs hv) hr),
      mapReferences_cons R f hq hr, ih]
    rfl
  | quoted b s hb _ ih =>
    rw [literal_append, mapReferences_body hb, mapReferences_body hb, ih]
    simp
  | reference a c t t' r hc _ _ _ hft hr _ ih =>
    have hr' := hR.swap hr (akin_append hv r)
    rw [append_assoc]
    rw [mapReferences_token hc hr' hft, mapReferences_token hc hr hft, ih, append_assoc]

theorem Edit.eq_nil_iff (h : Edit p s s') : s' = [] ↔ s = [] := by
  rw [← head?_eq_none_iff, ← head?_eq_none_iff, h.head?_eq]

theorem getLast?_any_append {b : Char → Bool} {v : List Char} (hs : s' = [] ↔ s = [])
    (hl : s'.getLast?.any b = s.getLast?.any b) (hu : v.getLast?.any b = u.getLast?.any b) :
    (v ++ s').getLast?.any b = (u ++ s).getLast?.any b := by
  by_cases h : s = []
  · rw [h, hs.2 h, append_nil, append_nil, hu]
  · rw [getLast?_append_of_ne_nil _ h, getLast?_append_of_ne_nil _ (fun h' => h (hs.1 h')), hl]

theorem Token.getLast?_isBlank (hc : isSigil c) (hu : Token u) :
    (c :: u).getLast?.any isBlank = false := by
  rw [Option.any_eq_false]
  intro d hd
  rcases mem_cons.1 (mem_of_getLast? hd) with rfl | hm
  · exact marks_isSigil.blank d hc
  · cases hu with
    | bare hb => exact isBare_not_isBlank (hb d hm)
    | @quoted b hb =>
      rw [← cons_append, getLast?_concat] at hd
      rw [← Option.some.inj hd]
      decide

theorem Edit.getLast?_isBlank (h : Edit p s s') :
    s'.getLast?.any isBlank = s.getLast?.any isBlank := by
  induction h with
  | nil => rfl
  | @char c _ _ _ h ih => exact getLast?_any_append (u := [c]) h.eq_nil_iff ih rfl
  | @literal b s s' _ h ih =>
    have := getLast?_any_append (u := '"' :: b ++ ['"']) h.eq_nil_iff ih rfl
    simpa using this
  | token hc _ hu hu' h ih =>
    refine getLast?_any_append h.eq_nil_iff ih ?_
    rw [hu.getLast?_isBlank hc, hu'.getLast?_isBlank hc]

theorem trimRight_blanks {t : List Char} (hu : u.getLast?.any isBlank = false)
    (ht : ∀ c ∈ t, isBlank c) :
    trimRight (u ++ t) = u := by
  have h := run_append (fun c hc => ht c (mem_reverse.1 hc))
    (by rw [head?_reverse, hu])
  rw [trimRight, reverse_append, h.2, reverse_reverse]

theorem trimRight_getLast? (s : List Char) : (trimRight s).getLast?.any isBlank = false := by
  rw [trimRight, getLast?_reverse]
  exact head?_dropWhile_any isBlank _

theorem trimRight_of_last (hu : u.getLast?.any isBlank = false) : trimRight u = u := by
  simpa using trimRight_blanks (t := []) hu (by simp)

theorem trimRight_trimRight (s : List Char) : trimRight (trimRight s) = trimRight s :=
  trimRight_of_last (trimRight_getLast? s)

theorem blanks_plain {t : List Char} (ht : ∀ c ∈ t, isBlank c) :
    ∀ c ∈ t, c ≠ '"' ∧ (isSigil c → p c = false) :=
  plain_apart fun c hc => isBlank_plain (ht c hc)

theorem mapReferences_trimLeft (hf : Replaces R p f) (hs : terminated false s) :
    mapReferences R f (trimLeft s) = trimLeft (mapReferences R f s) := by
  have hb : ∀ c ∈ s.takeWhile isBlank, isBlank c := fun c hc => mem_takeWhile_imp hc
  have hh : (mapReferences R f (trimLeft s)).head?.any isBlank = false := by
    rw [(mapReferences_edit hf (terminated_trimLeft hs)).head?_eq]
    exact head?_dropWhile_any isBlank s
  have hm := mapReferences_plain_append hf (blanks_plain hb) (trimLeft s)
  rw [trimLeft, takeWhile_append_dropWhile] at hm
  exact ((congrArg trimLeft hm).trans (trimLeft_append hb hh)).symm

theorem mapReferences_trim (hR : Sighted R) (hf : Replaces R p f) (hs : terminated false s) :
    mapReferences R f (trim s) = trim (mapReferences R f s) := by
  have hterm := terminated_trim hs
  obtain ⟨t, ht, htb⟩ := trimRight_append (trimLeft s)
  have hright : mapReferences R f (trimLeft s) = mapReferences R f (trim s) ++ t := by
    have hsplit := mapReferences_append hR hf hterm (breaks_blanks htb)
    have htail := mapReferences_plain_append hf (blanks_plain htb) []
    rw [mapReferences_nil, append_nil] at htail
    rwa [htail, trim, ← ht] at hsplit
  have hlast : (mapReferences R f (trim s)).getLast?.any isBlank = false := by
    rw [(mapReferences_edit hf hterm).getLast?_isBlank]
    exact trimRight_getLast? _
  rw [trim.eq_1 (mapReferences R f s), ← mapReferences_trimLeft hf hs, hright,
    trimRight_blanks hlast htb]

/-! ## Changing fields -/

theorem Divided.mapReferences (hR : Sighted R) (hf : Replaces R p f) {fs : List (List Char)}
    (h : Divided s fs)
    (hs : terminated false s) : Divided (mapReferences R f s) (fs.map (mapReferences R f)) := by
  induction h with
  | @last s depth h =>
    have hl : Divided (Ir.mapReferences R f s) _ :=
      .last (by rw [(mapReferences_edit hf hs).through_mark]; exact h)
    rw [← mapReferences_trim hR hf hs] at hl
    simp only [(mapReferences_edit hf (terminated_trim hs)).eq_nil_iff] at hl
    split_ifs at hl ⊢
    · exact hl
    · exact hl
  | @cons u s fs hu ht _ ih =>
    have htu := hu.terminated hs
    have he := mapReferences_edit hf htu
    rw [terminated_append htu] at hs
    rw [mapReferences_append hR hf htu (by rfl),
      mapReferences_cons R f (by decide) (hf.read_none (fun h => absurd h (by decide)) s), map_cons,
      mapReferences_trim hR hf htu]
    exact .cons (mark_append he.terminated.2) (by rw [he.through_mark]; exact ht) (ih hs)

theorem fields_mapReferences (hR : Sighted R) (hf : Replaces R p f) (hs : terminated false s) :
    fields (mapReferences R f s) = (fields s).map (mapReferences R f) :=
  ((divided_fields s).mapReferences hR hf hs).fields_eq

end change

end CallAtlas.Ir
