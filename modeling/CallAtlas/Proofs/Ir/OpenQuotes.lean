import CallAtlas.Proofs.Ir.Entities
import CallAtlas.Proofs.Ir.Pieces

/-!
# Texts with an open quote

On a text of one line at most one quote is never closed: `closed_or_open`. What stands behind that
quote counts for nothing, and a replacement of references keeps it so: a new name may come in quotes
and close the open one, but only bare characters stand between the new quotes, `mute_mapReferences`.
A text and what a join makes of it therefore differ in references up to the open quote, and in
nothing that counts behind it: `LooseEdit`. A text without sigils stays as it is, `Rewritten`.
-/

namespace CallAtlas.Ir

open Text List

variable {c : Char} {r s t u : List Char}

/-! ## The open quote -/

/-- What stands behind a quote that is never closed: each quote has a backslash before it. -/
inductive IsOpen : List Char → Prop where
  | nil : IsOpen []
  | backslash : IsOpen ['\\']
  | char {c : Char} {s : List Char} : c ≠ '"' → c ≠ '\\' → IsOpen s → IsOpen (c :: s)
  | escaped {c : Char} {s : List Char} : IsOpen s → IsOpen ('\\' :: c :: s)

theorem isOpen_of_closeQuote (h : closeQuote s = none) (hn : '\n' ∉ s) : IsOpen s := by
  fun_induction closeQuote s with
  | case1 => exact .nil
  | case2 => cases h
  | case3 => exact absurd (by simp) hn
  | case4 c s _ ih => exact .escaped (ih (Option.map_eq_none_iff.1 h) fun hm => hn (by simp [hm]))
  | case5 => exact .backslash
  | case6 c s hq _ hs he ih =>
    exact .char hq (ne_backslash hs he)
      (ih (Option.map_eq_none_iff.1 h) fun hm => hn (mem_cons_of_mem _ hm))

theorem IsOpen.closeQuote (h : IsOpen s) : closeQuote s = none := by
  induction h with
  | nil => rfl
  | backslash => rfl
  | char hq hs _ ih => rw [closeQuote_char hq hs, ih]; rfl
  | @escaped c s _ ih =>
    by_cases hc : c = '\n'
    · subst hc; rfl
    · rw [closeQuote_escaped hc, ih]; rfl

theorem IsOpen.head_ne (h : IsOpen (c :: s)) : c ≠ '"' := by
  cases h with
  | backslash => decide
  | char hq _ _ => exact hq
  | escaped _ => decide

theorem isBare_ne_backslash (h : isBare c) : c ≠ '\\' := by
  rintro rfl
  revert h
  decide

theorem IsOpen.tail (h : IsOpen (c :: s)) (hc : c ≠ '\\') : IsOpen s := by
  cases h with
  | backslash => exact .nil
  | char _ _ h => exact h
  | escaped _ => exact absurd rfl hc

theorem IsOpen.of_bare (hu : ∀ c ∈ u, isBare c) (h : IsOpen (u ++ s)) : IsOpen s := by
  induction u with
  | nil => exact h
  | cons c u ih =>
    exact ih (fun d hd => hu d (mem_cons_of_mem _ hd))
      (h.tail (isBare_ne_backslash (hu c mem_cons_self)))

theorem closed_or_open (hn : '\n' ∉ s) :
    terminated false s ∨ ∃ u r, s = u ++ '"' :: r ∧ terminated false u ∧ IsOpen r := by
  induction hl : s.length using Nat.strongRecOn generalizing s with
  | ind n ih =>
    subst hl
    cases s with
    | nil => exact .inl rfl
    | cons c s =>
      have hns : '\n' ∉ s := fun hm => hn (mem_cons_of_mem _ hm)
      by_cases hq : c = '"'
      · subst hq
        cases hc : closeQuote s with
        | none => exact .inr ⟨[], s, rfl, rfl, isOpen_of_closeQuote hc hns⟩
        | some p =>
          obtain ⟨b, r⟩ := p
          have hb := isBody_of_closeQuote hc
          obtain rfl := closeQuote_split hc
          rcases ih r.length (by simp; omega) (fun hm => hns (by simp [hm])) rfl with hr
            | ⟨u, o, rfl, hu, ho⟩
          · exact .inl (by rw [← cons_append, terminated_body hb, hr])
          · exact .inr ⟨'"' :: b ++ '"' :: u, o, by simp, by rw [terminated_body hb, hu], ho⟩
      · rcases ih s.length (by simp) hns rfl with hs | ⟨u, o, rfl, hu, ho⟩
        · exact .inl (by rw [terminated_cons hq, hs])
        · exact .inr ⟨c :: u, o, rfl, by rw [terminated_cons hq, hu], ho⟩

/-! ## What counts behind it -/

/-- Behind an open quote nothing counts but characters of bare names. -/
def Mute (s : List Char) : Prop := ∀ c, (c, true) ∈ mark true s → isBare c

theorem mute_nil : Mute [] := fun _ h => absurd h not_mem_nil

theorem Mute.char (hq : c ≠ '"') (hs : c ≠ '\\') (h : Mute s) : Mute (c :: s) := by
  have hm : mark true (c :: s) = (c, false) :: mark true s := by
    cases s <;> simp [mark, hq, hs]
  intro d hd
  rw [hm] at hd
  exact h d (by simpa using hd)

theorem Mute.escaped (h : Mute s) (c : Char) : Mute ('\\' :: c :: s) := by
  intro d hd
  rw [mark] at hd
  exact h d (by simpa using hd)

/-- A bare name, in quotes or not. -/
inductive Slim : List Char → Prop where
  | bare {u : List Char} : (∀ c ∈ u, isBare c) → Slim u
  | quoted {u : List Char} : (∀ c ∈ u, isBare c) → Slim ('"' :: u ++ ['"'])

theorem mark_bare (hu : ∀ c ∈ u, isBare c) (s : List Char) :
    mark false (u ++ s) = u.map (·, true) ++ mark false s := by
  induction u with
  | nil => rfl
  | cons c u ih =>
    rw [cons_append, mark_cons (isBare_ne_quote (hu c mem_cons_self)),
      ih fun d hd => hu d (mem_cons_of_mem _ hd)]
    rfl

theorem Slim.mute (hu : Slim u) (h : Mute s) : Mute (u ++ s) := by
  cases hu with
  | @bare u hu =>
    induction u with
    | nil => exact h
    | cons c u ih =>
      have hc := hu c mem_cons_self
      exact .char (isBare_ne_quote hc) (isBare_ne_backslash hc)
        (ih fun d hd => hu d (mem_cons_of_mem _ hd))
  | @quoted u hu =>
    -- the first of its quotes closes the open one, and the second opens another
    have hm : mark true ('"' :: u ++ ['"'] ++ s) =
        ('"', false) :: (u.map (·, true) ++ ('"', false) :: mark true s) := by
      have ho : mark true ('"' :: (u ++ ['"'] ++ s)) = ('"', false) ::
          mark false (u ++ '"' :: s) := by
        cases u <;> simp [mark]
      have hc : mark false ('"' :: s) = ('"', false) :: mark true s := by simp [mark]
      rw [cons_append, cons_append, ho, mark_bare hu, hc]
    intro d hd
    rw [hm] at hd
    simp only [mem_cons, mem_append, mem_map, Prod.mk.injEq, Bool.true_eq_false, and_false,
      false_or, and_true] at hd
    rcases hd with ⟨e, he, rfl⟩ | hd
    · exact hu e he
    · exact h d hd

theorem IsOpen.mute (h : IsOpen s) : Mute s := by
  induction h with
  | nil => exact mute_nil
  | backslash =>
    intro c hc
    simp [mark] at hc
  | char hq hs _ ih => exact ih.char hq hs
  | escaped _ ih => exact ih.escaped _

/-- What may follow a terminated text on one line: nothing, or an open quote. -/
inductive Tail : List Char → Prop where
  | nil : Tail []
  | quote {r : List Char} : Mute r → Tail ('"' :: r)

/-- A text without quotes at the head of a text with a tail stands before the tail. -/
theorem Tail.split {x y : List Char} (ht : Tail t) (hx : '"' ∉ x) (h : u ++ t = x ++ y) :
    ∃ v, u = x ++ v ∧ y = v ++ t := by
  cases ht with
  | nil => exact ⟨y, by rw [← h, append_nil], (append_nil y).symm⟩
  | quote _ =>
    rcases append_eq_append_iff.1 h with ⟨a, rfl, hb⟩ | ⟨a, rfl, hb⟩
    · cases a with
      | nil => exact ⟨[], by simp, by simpa using hb.symm⟩
      | cons c a =>
        obtain ⟨rfl, -⟩ := cons.inj hb
        exact absurd (by simp) hx
    · exact ⟨a, rfl, hb⟩

theorem Mute.not_isSquare (h : Mute r) : ∀ m ∈ mark true r, isSquare m = false := by
  rintro ⟨c, counts⟩ hm
  cases counts with
  | false => rfl
  | true =>
    have hne : ∀ d ∈ ['[', ']'], c ≠ d := ne_of_class (by decide) (h c hm)
    simpa [isSquare] using hne

theorem Tail.not_isSquare (ht : Tail t) : ∀ m ∈ mark false t, isSquare m = false := by
  cases ht with
  | nil => simp [mark]
  | @quote r hr =>
    exact forall_mem_cons.2 ⟨rfl, hr.not_isSquare⟩

/-- A bracket that counts stands before the tail of the text. -/
theorem Tail.closer {v w : List Char} (ht : Tail t) (hu : terminated false u)
    (hw : Apart false w false)
    (h : u ++ t = w ++ ']' :: v) : ∃ x, u = w ++ ']' :: x ∧ v = x ++ t := by
  have hnot : ∀ y, w = u ++ y → t ≠ y ++ ']' :: v := by
    rintro y rfl hy
    have hm : (']', true) ∈ mark false t := by
      rw [hy, ((show Apart false u false from mark_append hu).append_iff.1 hw),
        mark_cons (by decide)]
      simp
    exact absurd (ht.not_isSquare _ hm) (by decide)
  rcases append_eq_append_iff.1 h with ⟨y, hy, hty⟩ | ⟨y, hy, hty⟩
  · exact absurd hty (hnot y hy)
  · cases y with
    | nil => exact absurd hty.symm (hnot [] (by simpa using hy.symm))
    | cons c y =>
      obtain ⟨rfl, hv⟩ := cons.inj hty
      exact ⟨y, hy, hv⟩

theorem closingOffset?_tail (hs : terminated false ('[' :: s)) (ht : Tail t) :
    closingOffset? ('[' :: s ++ t) = closingOffset? ('[' :: s) := by
  rw [terminated_cons (by decide)] at hs
  refine Option.ext fun k => ⟨fun h => ?_, fun h => ?_⟩
  · obtain ⟨u, v, hu, rfl, ha, hc⟩ := exists_closing h
    obtain ⟨x, rfl, -⟩ := ht.closer hs ha hu
    exact closingOffset?_closed ha hc x
  · obtain ⟨u, v, rfl, rfl, ha, hc⟩ := exists_closing h
    have hs' : '[' :: (u ++ ']' :: v) ++ t = '[' :: u ++ ']' :: (v ++ t) := by simp
    rw [hs']
    exact closingOffset?_closed ha hc (v ++ t)

/-! ## Replacing references -/

/-- The replacement `f` puts a bare name, in quotes or not, for a bare name. -/
def KeepsBare {α : Type} (R : Reader α) (f : α → List Char → List Char) : Prop :=
  ∀ ⦃s a c u r⦄, R.read s = some (a, c :: u, r) → (∀ d ∈ u, isBare d) →
    ∃ u', f a (c :: u) = c :: u' ∧ Slim u'

/-- A replacement of references of the class `p` that puts names on one line for names. -/
structure TameRewrite {α : Type} (R : Reader α) (p : Char → Bool) (f : α → List Char → List Char) :
    Prop where
  replaces : Replaces R p f
  bare : KeepsBare R f
  line : ∀ ⦃s a t r⦄, R.read s = some (a, t, r) → '\n' ∉ t → '\n' ∉ f a t

section reader

variable {α : Type} {R : Reader α} {p : Char → Bool} {f : α → List Char → List Char}

variable {s : List Char}

theorem TameRewrite.newline_notMem (hf : TameRewrite R p f) (hs : '\n' ∉ s) :
    '\n' ∉ mapReferences R f s := by
  unfold mapReferences
  fun_induction lexemes R s with
  | case1 => simp
  | case2 c r text rest h ih =>
    rw [(literal?_split h).1, mem_append, not_or] at hs
    rw [flatMap_cons, mem_append, not_or]
    exact ⟨hs.1, ih hs.2⟩
  | case3 c r _ a text rest h ih =>
    rw [(R.split h).1, mem_append, not_or] at hs
    rw [flatMap_cons, mem_append, not_or]
    exact ⟨hf.line h hs.1, ih hs.2⟩
  | case4 c r _ _ ih =>
    rw [mem_cons, not_or] at hs
    rw [flatMap_cons, mem_append, not_or]
    exact ⟨by simpa [Lexeme.text] using hs.1, ih hs.2⟩

theorem TameRewrite.read_eq_none (hf : TameRewrite R p f) (hc : isSigil c = false) (s : List Char) :
    R.read (c :: s) = none :=
  hf.replaces.read_none (fun h => by rw [hc] at h; cases h) s

theorem TameRewrite.mapReferences_eq (hf : TameRewrite R p f) (hs : ∀ c ∈ s, isSigil c = false) :
    mapReferences R f s = s := by
  unfold mapReferences
  fun_induction lexemes R s with
  | case1 => rfl
  | case2 c r text rest h ih =>
    have hsplit := (literal?_split h).1
    rw [flatMap_cons, ih fun d hd => hs d (by rw [hsplit]; exact mem_append_right _ hd), hsplit]
    rfl
  | case3 c r _ a text rest h ih =>
    rw [hf.read_eq_none (hs c mem_cons_self)] at h
    cases h
  | case4 c r _ _ ih =>
    rw [flatMap_cons, ih fun d hd => hs d (mem_cons_of_mem _ hd)]
    rfl

theorem TameRewrite.mapReferences_quote (hf : TameRewrite R p f) (hs : IsOpen s) :
    mapReferences R f ('"' :: s) = '"' :: mapReferences R f s := by
  have hl : literal? ('"' :: s) = none := by rw [literal?_quote, hs.closeQuote]; rfl
  simp [mapReferences, lexemes_other R hl (hf.read_eq_none (by decide) s), Lexeme.text]

/-- One step behind an open quote: the first character stays, and behind it a bare name may be
replaced. -/
theorem TameRewrite.mute_step (hf : TameRewrite R p f) (hs : IsOpen s)
    (ih : ∀ r : List Char, r.length ≤ s.length → IsOpen r → Mute (mapReferences R f r)) :
    ∃ t, mapReferences R f (c :: s) = c :: t ∧ Mute t := by
  by_cases hq : c = '"'
  · subst hq
    exact ⟨_, hf.mapReferences_quote hs, ih s le_rfl hs⟩
  cases hr : R.read (c :: s) with
  | none => exact ⟨_, mapReferences_cons R f hq hr, ih s le_rfl hs⟩
  | some v =>
    obtain ⟨a, t, r⟩ := v
    obtain ⟨d, u, u', hd, -, rfl, hfu, hu, -⟩ := hf.replaces hr
    have hsplit := (R.split hr).1
    obtain ⟨rfl, rfl⟩ := cons.inj hsplit
    have hub : ∀ e ∈ u, isBare e := by
      cases hu with
      | bare hu => exact hu
      | quoted hb => exact absurd rfl hs.head_ne
    obtain ⟨w, hw, hslim⟩ := hf.bare hr hub
    rw [mapReferences_read R f hq (isSigil_ne_c hd) hr, hw]
    exact ⟨_, rfl, hslim.mute (ih r (by simp) (hs.of_bare hub))⟩

theorem TameRewrite.mute_mapReferences (hf : TameRewrite R p f) (hs : IsOpen s) :
    Mute (mapReferences R f s) := by
  have hsl (r : List Char) : mapReferences R f ('\\' :: r) = '\\' :: mapReferences R f r :=
    mapReferences_cons R f (by decide) (hf.read_eq_none (by decide) r)
  induction hn : s.length using Nat.strongRecOn generalizing s with
  | ind n ih =>
    subst hn
    cases hs with
    | nil => rw [mapReferences_nil]; exact mute_nil
    | backslash =>
      rw [hsl]
      intro c hc
      simp [mark] at hc
    | @char c s hq hb hs =>
      obtain ⟨t, ht, hm⟩ := hf.mute_step hs fun r hr ho => ih r.length (by simp; omega) ho rfl
      rw [ht]
      exact .char hq hb hm
    | @escaped c s hs =>
      obtain ⟨t, ht, hm⟩ := hf.mute_step hs fun r hr ho => ih r.length (by simp; omega) ho rfl
      rw [hsl, ht]
      exact hm.escaped c

/-- Two texts that are the same but for tokens behind sigils of a class, as far as their quotes are
closed. -/
inductive LooseEdit (p : Char → Bool) : List Char → List Char → Prop where
  | closed {s s' : List Char} : Edit p s s' → LooseEdit p s s'
  | opened {u u' r r' : List Char} : Edit p u u' → Mute r → Mute r' →
    LooseEdit p (u ++ '"' :: r) (u' ++ '"' :: r')

theorem token_before_open {rest : List Char} (ht : Token t) (hu : terminated false u)
    (hr : IsOpen r) (h : u ++ '"' :: r = t ++ rest) : ∃ v, u = t ++ v ∧ rest = v ++ '"' :: r := by
  cases ht with
  | @bare t ht => exact (Tail.quote hr.mute).split (fun hq => isBare_ne_quote (ht _ hq) rfl) h
  | @quoted b hb =>
    simp only [cons_append, append_assoc, nil_append] at h
    cases u with
    | nil =>
      obtain ⟨-, rfl⟩ := cons.inj h
      have hc := closeQuote_body hb rest
      rw [hr.closeQuote] at hc
      cases hc
    | cons c u =>
      obtain ⟨rfl, htl⟩ := cons.inj h
      obtain ⟨b', v, hb', rfl, -⟩ := terminated_quote.1 hu
      replace htl : b' ++ '"' :: v ++ '"' :: r = b ++ '"' :: rest := htl
      rw [append_assoc] at htl
      obtain ⟨rfl, rfl⟩ := hb'.unique hb htl
      exact ⟨v, by simp, rfl⟩

theorem TameRewrite.mapReferences_open (hf : TameRewrite R p f) (hu : terminated false u)
    (hr : IsOpen r) : ∃ u', mapReferences R f (u ++ '"' :: r) = u' ++ '"' :: mapReferences R f r ∧
    Edit p u u' := by
  induction hn : u.length using Nat.strongRecOn generalizing u with
  | ind n ih =>
    subst hn
    cases u with
    | nil => exact ⟨[], hf.mapReferences_quote hr, .nil⟩
    | cons c u =>
      by_cases hq : c = '"'
      · subst hq
        obtain ⟨b, v, hb, rfl, hv⟩ := terminated_quote.1 hu
        obtain ⟨v', hv', he⟩ := ih v.length (by simp; omega) hv rfl
        refine ⟨'"' :: b ++ '"' :: v', ?_, .literal hb he⟩
        have hc := closeQuote_body hb (v ++ '"' :: r)
        rw [cons_append, append_assoc, cons_append, Ir.mapReferences_quote R f hc, hv']
        simp
      · cases hrd : R.read (c :: (u ++ '"' :: r)) with
        | none =>
          rw [terminated_cons hq] at hu
          obtain ⟨u', hu', he⟩ := ih u.length (by simp) hu rfl
          exact ⟨c :: u', by rw [cons_append, mapReferences_cons R f hq hrd, hu']; rfl, .char hq he⟩
        | some w =>
          obtain ⟨a, t, rest⟩ := w
          obtain ⟨d, x, x', hd, hp, rfl, hfx, hx, hx'⟩ := hf.replaces hrd
          have hsplit := (R.split hrd).1
          obtain ⟨rfl, htl⟩ := cons.inj hsplit
          rw [terminated_cons hq] at hu
          obtain ⟨v, rfl, rfl⟩ := token_before_open hx hu hr htl
          rw [hx.terminated] at hu
          obtain ⟨v', hv', he⟩ := ih v.length (by simp) hu rfl
          refine ⟨c :: x' ++ v', ?_, .token hd hp hx hx' he⟩
          rw [cons_append, mapReferences_read R f hq (isSigil_ne_c hd) hrd, hfx, hv', append_assoc]

/-- A replacement of references is a loose edit of a text of one line. -/
theorem TameRewrite.looseEdit (hf : TameRewrite R p f) (hs : '\n' ∉ s) :
    LooseEdit p s (mapReferences R f s) := by
  rcases closed_or_open hs with ht | ⟨u, r, rfl, hu, hr⟩
  · exact .closed (mapReferences_edit hf.replaces ht)
  · obtain ⟨u', hu', he⟩ := hf.mapReferences_open hu hr
    rw [hu']
    exact .opened he hr.mute (hf.mute_mapReferences hr)

end reader

variable {name s x : List Char} {p : Char → Bool}

theorem LooseEdit.refl (hs : '\n' ∉ s) : LooseEdit p s s := by
  rcases closed_or_open hs with ht | ⟨u, r, rfl, hu, hr⟩
  · exact .closed (.refl ht)
  · exact .opened (.refl hu) hr.mute hr.mute

theorem LooseEdit.symm {s' : List Char} (h : LooseEdit p s s') : LooseEdit p s' s := by
  cases h with
  | closed h => exact .closed h.symm
  | opened h hr hr' => exact .opened h.symm hr' hr

/-- What a replacement of references makes of a text of one line. -/
structure Rewritten (p : Char → Bool) (s s' : List Char) : Prop where
  loose : LooseEdit p s s'
  line : '\n' ∉ s'
  same : (∀ c ∈ s, isSigil c = false) → s' = s

theorem Rewritten.refl (hs : '\n' ∉ s) : Rewritten p s s :=
  ⟨.refl hs, hs, fun _ => rfl⟩

theorem TameRewrite.rewritten {α : Type} {R : Reader α} {f : α → List Char → List Char}
    (hf : TameRewrite R p f) (hs : '\n' ∉ s) : Rewritten p s (mapReferences R f s) :=
  ⟨hf.looseEdit hs, hf.newline_notMem hs, hf.mapReferences_eq⟩

/-! ## The changes that a join makes -/

theorem newline_notMem_of_bare (hu : ∀ c ∈ u, isBare c) : '\n' ∉ u := fun h =>
  absurd (hu _ h) (by decide)

theorem Suffixed.bareChars (h : Suffixed x name) (hx : ∀ c ∈ x, isBare c) :
    ∀ c ∈ name, isBare c := by
  obtain ⟨d, ds, rfl, hd⟩ := h
  intro c hc
  rcases mem_append.1 hc with hc | hc
  · exact hx c hc
  · rcases mem_cons.1 hc with rfl | hc
    · decide
    · exact isBare_of_isNameChar (isNameChar_of_isAsciiDigit (hd c hc))

/-- The written form of a bare name with a number behind it is bare, in quotes or not. -/
theorem Suffixed.slim (h : Suffixed x name) (hx : ∀ c ∈ x, isBare c) (c : Char) :
    ∃ u, writeName [c] name = c :: u ∧ Slim u := by
  have hb := h.bareChars hx
  unfold writeName
  split_ifs
  · exact ⟨name, rfl, .bare hb⟩
  · rw [(escape_bare hb).1]
    exact ⟨_, rfl, .quoted hb⟩

theorem Suffixed.newline_notMem (h : Suffixed x name) (hc : c ≠ '\n') :
    '\n' ∉ writeName [c] name := by
  unfold writeName
  rw [h.not_isNumberName, Bool.or_false]
  split_ifs with hb
  · have hn : '\n' ∉ name :=
      newline_notMem_of_bare fun d hd => isBare_of_isNameChar (h.bare hb d hd)
    simpa [hc.symm] using hn
  · have hn : '\n' ∉ escape name := fun hm => absurd (breakless_escape name _ hm) (by decide)
    simpa [hc.symm] using hn

theorem tame_respell {sigil : Char} (hc : isSigil sigil) {R : Reader Spelling}
    {bare : List Char → Option (List Char × List Char)} (hR : R.read = sigilRead sigil bare)
    (hb : ∀ {s n r}, bare s = some (n, r) → ∀ c ∈ n, isBare c) {rename : String → Option String}
    (hw : ∀ {x y}, rename x = some y → Suffixed x.toList y.toList) :
    TameRewrite R (· = sigil) (respell [sigil] rename) where
  replaces :=
    replaces_respell hc (fun h => sigilRead_token hb (hR ▸ h)) fun h => writable_suffixed (hw h)
  bare := by
    intro s w c u r h hu
    rw [hR] at h
    obtain ⟨s', v, -, hv, hsp⟩ := sigilRead_eq_some h
    obtain ⟨rfl, rfl⟩ := List.cons.inj hv
    obtain rfl : w = .bare u := by
      unfold spelling? at hsp
      split at hsp
      · obtain ⟨q, -, he⟩ := Option.map_eq_some_iff.1 hsp
        obtain ⟨-, ht⟩ := Prod.mk.inj he
        rw [← (Prod.mk.inj ht).1] at hu
        exact absurd (hu '"' (by simp)) (by decide)
      · obtain ⟨q, -, he⟩ := Option.map_eq_some_iff.1 hsp
        obtain ⟨hw', ht⟩ := Prod.mk.inj he
        rw [← hw', ← (Prod.mk.inj ht).1]
    unfold respell
    cases hr : rename (String.ofList (Spelling.bare u).name) with
    | none => exact ⟨u, rfl, .bare hu⟩
    | some new =>
      have hs := hw hr
      rw [String.toList_ofList] at hs
      exact hs.slim hu c
  line := by
    intro s w t r _ ht
    unfold respell
    cases hr : rename (String.ofList w.name) with
    | none => exact ht
    | some new =>
      refine (hw hr).newline_notMem ?_
      rintro rfl
      exact absurd hc (by decide)

theorem tame_renumber (k l : Int) : TameRewrite numberedReader isNumberSigil (renumber k l) where
  replaces := replaces_renumber k l
  bare := by
    intro s a c u r h _
    obtain ⟨v, hv, -⟩ := numberedRead_token h
    obtain ⟨rfl, -⟩ := List.cons.inj hv
    exact ⟨_, rfl, .bare (isBare_intDigits _)⟩
  line := by
    intro s a t r _ _
    have hk : a.1.sigil ≠ '\n' := by cases a.1 <;> decide
    rw [renumber, mem_cons, not_or]
    exact ⟨hk.symm, newline_notMem_of_bare (isBare_intDigits _)⟩

section changes

variable {text : String} (ht : '\n' ∉ text.toList) {rename : String → Option String}

include ht

theorem renameGlobals_rewritten (hw : ∀ {x y}, rename x = some y → Suffixed x.toList y.toList) :
    Rewritten (· = '@') text.toList (renameGlobals rename text).toList := by
  rw [renameGlobals, toList_renameWith]
  exact (tame_respell rfl rfl globalName?_chars hw).rewritten ht

theorem renameTypes_rewritten (hw : ∀ {x y}, rename x = some y → Suffixed x.toList y.toList) :
    Rewritten (· = '%') text.toList (renameTypes rename text).toList := by
  rw [renameTypes, toList_renameWith]
  have hf := tame_respell (R := typeReader) rfl rfl
    (fun h c hc => isBare_of_isNameChar (bareName?_chars h c hc)) hw
  exact hf.rewritten ht

theorem shiftNumbered_rewritten (metadataOffset attributeOffset : Int) :
    Rewritten isNumberSigil text.toList
      (shiftNumbered metadataOffset attributeOffset text).toList := by
  by_cases h : metadataOffset = 0 ∧ attributeOffset = 0
  · rw [shiftNumbered, if_pos h]
    exact .refl ht
  · rw [toList_shiftNumbered h]
    exact (tame_renumber _ _).rewritten ht

end changes

end CallAtlas.Ir
