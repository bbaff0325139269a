import CallAtlas.Proofs.Ir.Records

/-!
# What stands at the head of an edited text

Reading the head of a text gives the same before and after an edit, as long as what is read holds no
reference of the edited class, and the rests are edited again. A read is of a word,
`Edit.dropHead?_rel`, of a run of characters, `Edit.run?_rel`, of a quoted string,
`Edit.quoted?_rel`, or of a name in either form, `Edit.spelling?_rel`.
-/

namespace CallAtlas.Ir

open Text

variable {c : Char} {q : Char → Bool} {s s' w : List Char}

theorem Edit.trimLeft (h : Edit q s s') : Edit q (trimLeft s) (trimLeft s') := by
  have hb : ∀ c ∈ s.takeWhile isBlank, isBlank c := fun c hc => List.mem_takeWhile_imp hc
  have h' : Edit q (s.takeWhile isBlank ++ Text.trimLeft s) s' := by
    rwa [Text.trimLeft, List.takeWhile_append_dropWhile]
  obtain ⟨t, rfl, ht⟩ := h'.run_inv (blanks_plain hb)
  have hh : t.head?.any isBlank = false := by
    rw [ht.head?_eq]
    exact head?_dropWhile_any isBlank s
  have he : trimLeft (s.takeWhile isBlank ++ t) = t := (run_append hb hh).2
  rwa [he]

theorem plain_word (hw : w.all (fun c => c ≠ '"' && !isSigil c) = true) :
    ∀ c ∈ w, c ≠ '"' ∧ isSigil c = false := by
  intro c hc
  have := List.all_eq_true.1 hw c hc
  simpa only [Bool.and_eq_true, decide_eq_true_eq, Bool.not_eq_true'] using this

theorem Edit.dropHead?_rel (h : Edit q s s') (hw : ∀ c ∈ w, c ≠ '"' ∧ (isSigil c → q c = false)) :
    Option.Rel (Edit q) (dropHead? w s) (dropHead? w s') := by
  cases hs : dropHead? w s with
  | some r =>
    obtain rfl := dropHead?_eq_some hs
    obtain ⟨r', rfl, hr⟩ := h.run_inv hw
    rw [dropHead?_append]
    exact .some hr
  | none =>
    cases hs' : dropHead? w s' with
    | none => exact .none
    | some r' =>
      obtain rfl := dropHead?_eq_some hs'
      obtain ⟨r, rfl, -⟩ := h.symm.run_inv hw
      rw [dropHead?_append] at hs
      cases hs

theorem dropHead?_eq_none (h : ∀ r, s = c :: r → False) : dropHead? [c] s = none := by
  cases hs : dropHead? [c] s with
  | none => rfl
  | some r => exact (h r (dropHead?_eq_some hs)).elim

/-- The same is read of both texts, and the rests are edited. -/
def SameRead {α : Type} (q : Char → Bool) :
    Option (α × List Char) → Option (α × List Char) → Prop :=
  Option.Rel fun v v' => v'.1 = v.1 ∧ Edit q v.2 v'.2

theorem quoted?_ne (hc : c ≠ '"') (s : List Char) : quoted? (c :: s) = none := by
  unfold quoted?
  split
  · next h => exact absurd (List.cons.inj h).1 hc
  · rfl

theorem quoted?_body {b : List Char} (hb : IsBody b) (s : List Char) :
    quoted? ('"' :: b ++ '"' :: s) = some ('"' :: b ++ ['"'], s) := by
  rw [List.cons_append, quoted?, closeQuote_body hb]
  rfl

theorem Edit.quoted?_rel (h : Edit q s s') : SameRead q (quoted? s) (quoted? s') := by
  cases h with
  | nil => exact .none
  | char hq _ =>
    rw [quoted?_ne hq, quoted?_ne hq]
    exact .none
  | literal hb h =>
    rw [quoted?_body hb, quoted?_body hb]
    exact .some ⟨rfl, h⟩
  | token hc _ _ _ _ =>
    rw [List.cons_append, List.cons_append, quoted?_ne (isSigil_ne_quote hc),
      quoted?_ne (isSigil_ne_quote hc)]
    exact .none

theorem Edit.run?_rel {p : Char → Bool} (hp : ∀ c, p c → c ≠ '"' ∧ isSigil c = false)
    (h : Edit q s s') :
    SameRead q (run? p s) (run? p s') := by
  cases hr : run? p s with
  | none =>
    rw [run?_eq_none, ← h.head?_eq, ← run?_eq_none] at hr
    rw [hr]
    exact .none
  | some v =>
    obtain ⟨hne, hn, hend⟩ := run?_eq_some hr
    obtain rfl := (run?_split hr).1
    obtain ⟨r', rfl, hr'⟩ := h.run_inv (plain_apart fun c hc => hp c (hn c hc))
    rw [run?_append hne hn (hr'.head?_eq ▸ hend)]
    exact .some ⟨rfl, hr'⟩

section rel

variable {α β γ δ : Type} {R : α → β → Prop} {S : γ → δ → Prop} {o : Option α} {o' : Option β}

theorem rel_bind {f : α → Option γ} {f' : β → Option δ} (h : Option.Rel R o o')
    (hf : ∀ a b, R a b → Option.Rel S (f a) (f' b)) : Option.Rel S (o.bind f) (o'.bind f') := by
  cases h with
  | none => exact .none
  | some h => exact hf _ _ h

theorem rel_map {f : α → γ} {f' : β → δ} (h : Option.Rel R o o')
    (hf : ∀ {a b}, R a b → S (f a) (f' b)) : Option.Rel S (o.map f) (o'.map f') := by
  cases h with
  | none => exact .none
  | some h => exact .some (hf h)

end rel

theorem isNameChar_plain (h : isNameChar c) : c ≠ '"' ∧ isSigil c = false :=
  isBare_plain (isBare_of_isNameChar h)

theorem isLocalChar_plain (h : isLocalChar c) : c ≠ '"' ∧ isSigil c = false :=
  plain_of_class (by decide) h

theorem isLocalChar_of_isBare (h : isBare c) : isLocalChar c := by
  have hr : inRanges ([(0x24, 0x24), (0x2D, 0x2E)] ++ wordClass) c :=
    inRanges_of_append (by decide +kernel) (by decide +kernel) (isBare_inRanges h)
  rw [inRanges_append, ← isWord_eq] at hr
  simp only [isLocalChar, Bool.or_eq_true, decide_eq_true_eq, ← Char.toNat_inj, Char.reduceToNat]
  rcases hr with hr | hr
  · have hn : 0x24 ≤ c.toNat ∧ c.toNat ≤ 0x24 ∨ 0x2D ≤ c.toNat ∧ c.toNat ≤ 0x2E := by
      simpa [inRanges] using hr
    omega
  · exact .inl (.inl (.inl hr))

theorem Edit.spelling?_rel {p : Char → Bool} (hp : ∀ c, p c → c ≠ '"' ∧ isSigil c = false)
    (h : Edit q s s') :
    Option.Rel (fun v v' => v'.1 = v.1 ∧ v'.2.1 = v.2.1 ∧ Edit q v.2.2 v'.2.2)
      (spelling? (run? p) s) (spelling? (run? p) s') := by
  by_cases hs : s.head? = some '"'
  · cases h with
    | nil => cases hs
    | char hq _ => exact absurd (Option.some.inj hs) hq
    | literal hb h =>
      rw [spelling?_body hb, spelling?_body hb]
      exact .some ⟨rfl, rfl, h⟩
    | token hc _ _ _ _ => exact absurd (Option.some.inj hs) (isSigil_ne_quote hc)
  · rw [spelling?_bare hs, spelling?_bare (h.head?_eq ▸ hs)]
    exact rel_map (h.run?_rel hp) fun h => ⟨congrArg Spelling.bare h.1, h.1, h.2⟩

end CallAtlas.Ir
