import CallAtlas.Proofs.Ir.Keywords
import CallAtlas.Proofs.Ir.Quotes
import CallAtlas.Proofs.Text.Classes

/-!
# Texts that differ in references

A reference is a sigil with a token behind it, a bare run or a quoted string. `Edit p` relates two
texts that are the same but for the tokens behind sigils of the class `p`. Renaming symbols,
renaming types and moving numbers are such edits, `renameGlobals_edit`, `renameTypes_edit` and
`shiftNumbered_edit`, provided that every quote is closed and new names have a written form that is
a token. The new names that a join gives end in a dot and a number and have one,
`writable_suffixed`.
-/

namespace CallAtlas.Ir

open Text List

variable {c : Char} {u : List Char}

/-- A character of a bare name or of a number. -/
def isBare (c : Char) : Bool := isNameChar c || isDecimal c

/-- What may stand behind a sigil. -/
inductive Token : List Char → Prop where
  | bare {u : List Char} : (∀ c ∈ u, isBare c) → Token u
  | quoted {b : List Char} : IsBody b → Token ('"' :: b ++ ['"'])

/-- Two texts that are the same but for the tokens behind sigils of a class. -/
inductive Edit (p : Char → Bool) : List Char → List Char → Prop where
  | nil : Edit p [] []
  | char {c : Char} {s s' : List Char} : c ≠ '"' → Edit p s s' → Edit p (c :: s) (c :: s')
  | literal {b s s' : List Char} : IsBody b → Edit p s s' →
    Edit p ('"' :: b ++ '"' :: s) ('"' :: b ++ '"' :: s')
  | token {c : Char} {u u' s s' : List Char} : isSigil c → p c → Token u → Token u' → Edit p s s' →
      Edit p (c :: u ++ s) (c :: u' ++ s')

theorem ne_of_class {p : Char → Bool} {ds : List Char} (hp : ds.all (!p ·)) (h : p c) :
    ∀ d ∈ ds, c ≠ d := by
  rintro d hd rfl
  have := all_eq_true.1 hp c hd
  rw [h] at this
  cases this

/-- A character of a class without quotes and sigils. -/
theorem plain_of_class {p : Char → Bool} (hp : ['"', '@', '%', '!', '#'].all (!p ·)) (h : p c) :
    c ≠ '"' ∧ isSigil c = false := by
  simpa [isSigil, and_assoc] using ne_of_class hp h

theorem isBare_inRanges (h : isBare c) : inRanges (nameStarts ++ digitRanges) c := by
  rw [inRanges_append, ← isNameStart_eq]
  simp only [isBare, isNameChar, Bool.or_eq_true, Bool.and_eq_true, decide_eq_true_eq] at h
  rcases h with (h | h) | h
  · exact .inl h
  · exact .inr (inRanges_iff.2 ⟨(0x30, 0x39), by decide, h⟩)
  · exact .inr (isDecimal_inRanges h)

theorem isBare_plain (h : isBare c) : c ≠ '"' ∧ isSigil c = false := plain_of_class (by decide) h

theorem isBare_ne_quote (h : isBare c) : c ≠ '"' := (isBare_plain h).1

theorem isBare_isSigil (h : isBare c) : isSigil c = false := (isBare_plain h).2

theorem isSigil_ne_quote (h : isSigil c) : c ≠ '"' := by
  rintro rfl
  revert h
  decide

theorem isBare_of_isDecimal (h : isDecimal c) : isBare c := by
  rw [isBare, h, Bool.or_true]

theorem plain_apart {p : Char → Bool} (hu : ∀ c ∈ u, c ≠ '"' ∧ isSigil c = false) :
    ∀ c ∈ u, c ≠ '"' ∧ (isSigil c → p c = false) :=
  fun c hc => ⟨(hu c hc).1, fun hs => by rw [(hu c hc).2] at hs; cases hs⟩

theorem Token.terminated (hu : Token u) (s : List Char) :
    terminated false (u ++ s) = terminated false s := by
  cases hu with
  | @bare u hu =>
    induction u with
    | nil => rfl
    | cons c u ih =>
      rw [cons_append, terminated_cons (isBare_ne_quote (hu c mem_cons_self)),
        ih fun d hd => hu d (mem_cons_of_mem _ hd)]
  | quoted hb => rw [append_assoc]; exact terminated_body hb s

namespace Edit

variable {p : Char → Bool} {s s' : List Char}

theorem refl (hs : terminated false s) : Edit p s s := by
  induction hs using terminated_induction with
  | nil => exact nil
  | char c s hq hs ih => exact char hq (ih s hs le_rfl)
  | quoted b s hb _ ih => exact literal hb ih

theorem symm (h : Edit p s s') : Edit p s' s := by
  induction h with
  | nil => exact nil
  | char hq _ ih => exact char hq ih
  | literal hb _ ih => exact literal hb ih
  | token hc hp hu hu' _ ih => exact token hc hp hu' hu ih

theorem head?_eq (h : Edit p s s') : s'.head? = s.head? := by
  cases h <;> rfl

theorem terminated (h : Edit p s s') : Ir.terminated false s ∧ Ir.terminated false s' := by
  induction h with
  | nil => exact ⟨rfl, rfl⟩
  | char hq _ ih => rwa [terminated_cons hq, terminated_cons hq]
  | literal hb _ ih => rwa [terminated_body hb, terminated_body hb]
  | token hc _ hu hu' _ ih =>
    have hq := isSigil_ne_quote hc
    rwa [cons_append, cons_append, terminated_cons hq, terminated_cons hq, hu.terminated,
      hu'.terminated]

/-- A character that is neither a quote nor a sigil of the class stays. -/
theorem cons_inv (h : Edit p (c :: s) s') (hq : c ≠ '"') (hp : isSigil c → p c = false) :
    ∃ t, s' = c :: t ∧ Edit p s t := by
  cases h with
  | char _ h => exact ⟨_, rfl, h⟩
  | literal => exact absurd rfl hq
  | token hc hp' => rw [hp hc] at hp'; cases hp'

/-- A run of such characters stays. -/
theorem run_inv (h : Edit p (u ++ s) s') (hu : ∀ c ∈ u, c ≠ '"' ∧ (isSigil c → p c = false)) :
    ∃ t, s' = u ++ t ∧ Edit p s t := by
  induction u generalizing s' with
  | nil => exact ⟨s', rfl, h⟩
  | cons c u ih =>
    obtain ⟨hq, hp⟩ := hu c mem_cons_self
    obtain ⟨t, rfl, ht⟩ := h.cons_inv hq hp
    obtain ⟨r, rfl, hr⟩ := ih ht fun d hd => hu d (mem_cons_of_mem _ hd)
    exact ⟨r, rfl, hr⟩

theorem body_inv {b : List Char} (h : Edit p ('"' :: b ++ '"' :: s) s') (hb : IsBody b) :
    ∃ t, s' = '"' :: b ++ '"' :: t ∧ Edit p s t := by
  generalize hs : '"' :: b ++ '"' :: s = r at h
  cases h with
  | nil => cases hs
  | char hq _ => exact absurd (cons.inj hs).1.symm hq
  | literal hb' h =>
    obtain ⟨rfl, rfl⟩ := hb.unique hb' (cons.inj hs).2
    exact ⟨_, rfl, h⟩
  | token hc _ _ _ _ => exact absurd (cons.inj hs).1.symm (isSigil_ne_quote hc)

end Edit

/-! ## Replacing references -/

/-- The replacement `f` keeps the sigil, which is of the class `p`, and changes the token behind
it. -/
def Replaces {α : Type} (R : Reader α) (p : Char → Bool) (f : α → List Char → List Char) : Prop :=
  ∀ ⦃s a t r⦄, R.read s = some (a, t, r) →
    ∃ c u u', isSigil c ∧ p c ∧ t = c :: u ∧ f a t = c :: u' ∧ Token u ∧ Token u'

theorem isSigil_ne_c (h : isSigil c) : c ≠ 'c' := by
  rintro rfl
  revert h
  decide

section replaces

variable {α : Type} {R : Reader α} {p : Char → Bool} {f : α → List Char → List Char}

theorem Replaces.read_none (hf : Replaces R p f) (hc : isSigil c → p c = false) (s : List Char) :
    R.read (c :: s) = none := by
  cases hr : R.read (c :: s) with
  | none => rfl
  | some w =>
    obtain ⟨a, t, r⟩ := w
    obtain ⟨d, u, u', hd, hp, rfl, -⟩ := hf hr
    obtain ⟨rfl, -⟩ := cons.inj (R.split hr).1
    rw [hc hd] at hp
    cases hp

/-- Induction on a terminated text along its references. -/
theorem Replaces.induction (hf : Replaces R p f) {P : ∀ s, terminated false s → Prop}
    (nil : P [] rfl)
    (char : ∀ c s (hq : c ≠ '"') (hs : terminated false s), R.read (c :: s) = none → P s hs →
      P (c :: s) ((terminated_cons hq s).trans hs))
    (quoted : ∀ b s (hb : IsBody b) (hs : terminated false s), P s hs →
      P ('"' :: b ++ '"' :: s) ((terminated_body hb s).trans hs))
    (reference : ∀ a c u u' r (hc : isSigil c), p c → ∀ (hu : Token u), Token u' →
      f a (c :: u) = c :: u' →
      R.read (c :: u ++ r) = some (a, c :: u, r) → ∀ hr : terminated false r, P r hr →
      P (c :: u ++ r)
      (((terminated_cons (isSigil_ne_quote hc) (u ++ r)).trans (hu.terminated r)).trans hr))
    {s : List Char} (hs : terminated false s) : P s hs := by
  induction hs using terminated_induction with
  | nil => exact nil
  | quoted b s hb hs ih => exact quoted b s hb hs ih
  | char c s hq hs ih =>
    cases hr : R.read (c :: s) with
    | none => exact char c s hq hs hr (ih s hs le_rfl)
    | some v =>
      obtain ⟨a, t, r⟩ := v
      obtain ⟨d, u, u', hd, hp, rfl, hfu, hu, hu'⟩ := hf hr
      obtain ⟨rfl, rfl⟩ := cons.inj (R.split hr).1
      have ht := (hu.terminated r).symm.trans hs
      exact reference a c u u' r hd hp hu hu' hfu hr ht (ih r ht (by simp))

theorem mapReferences_token {a : α} {u' r : List Char} (hc : isSigil c)
    (hr : R.read (c :: u ++ r) = some (a, c :: u, r)) (hfu : f a (c :: u) = c :: u') :
    mapReferences R f (c :: u ++ r) = c :: u' ++ mapReferences R f r := by
  rw [← hfu]
  exact mapReferences_read R f (isSigil_ne_quote hc) (isSigil_ne_c hc) hr

theorem mapReferences_body {b : List Char} (hb : IsBody b) (s : List Char) :
    mapReferences R f ('"' :: b ++ '"' :: s) = '"' :: b ++ '"' :: mapReferences R f s :=
  mapReferences_quote R f (closeQuote_body hb s)

/-- Characters that are no quotes and at which nothing is read stay. -/
theorem mapReferences_skip (hu : ∀ c ∈ u, c ≠ '"' ∧ ∀ s, R.read (c :: s) = none) (v : List Char) :
    mapReferences R f (u ++ v) = u ++ mapReferences R f v := by
  induction u with
  | nil => rfl
  | cons c u ih =>
    obtain ⟨⟨hq, hr⟩, hu⟩ := forall_mem_cons.1 hu
    rw [cons_append, mapReferences_cons R f hq (hr _), ih hu]
    rfl

theorem Token.mapReferences (hu : Token u)
    (hR : ∀ {c s}, isSigil c = false → R.read (c :: s) = none)
    (s : List Char) : mapReferences R f (u ++ s) = u ++ mapReferences R f s := by
  cases hu with
  | bare hu =>
    exact mapReferences_skip
      (fun c hc => ⟨isBare_ne_quote (hu c hc), fun _ => hR (isBare_isSigil (hu c hc))⟩) s
  | quoted hb =>
    rw [quoted_append, quoted_append]
    exact mapReferences_body hb s

theorem mapReferences_edit (hf : Replaces R p f) {s : List Char} (hs : terminated false s) :
    Edit p s (mapReferences R f s) := by
  induction hs using hf.induction with
  | nil =>
    rw [mapReferences_nil]
    exact .nil
  | char c s hq _ hr ih =>
    rw [mapReferences_cons R f hq hr]
    exact .char hq ih
  | quoted b s hb _ ih =>
    rw [mapReferences_body hb]
    exact .literal hb ih
  | reference a c u u' r hc hp hu hu' hfu hr _ ih =>
    rw [mapReferences_token hc hr hfu]
    exact .token hc hp hu hu' ih

end replaces

variable {c : Char} {n name r t x : List Char} {rename : String → Option String} {text : String}
  {w : Spelling}
variable {s : List Char}

/-! ## Written forms -/

/-- The written form of a name is a token behind any sigil. -/
def Writable (name : List Char) : Prop := ∃ u, Token u ∧ ∀ c, writeName [c] name = c :: u

theorem isBare_of_isNameChar (h : isNameChar c) : isBare c := by
  rw [isBare, h, Bool.true_or]

theorem bareName?_chars (h : bareName? s = some (n, r)) : ∀ c ∈ n, isNameChar c := by
  cases s with
  | nil => cases h
  | cons d s =>
    by_cases hd : isNameStart d
    · simp only [bareName?, hd] at h
      obtain ⟨rfl, -⟩ := h
      intro c hc
      rcases mem_cons.1 hc with rfl | hc
      · rw [isNameChar, hd, Bool.true_or]
      · exact mem_takeWhile_imp hc
    · simp [bareName?, hd] at h

theorem globalName?_chars (h : globalName? s = some (n, r)) : ∀ c ∈ n, isBare c := by
  unfold globalName? at h
  cases hb : bareName? s with
  | none =>
    simp only [hb] at h
    exact fun c hc => isBare_of_isDecimal ((run?_eq_some h).2.1 c hc)
  | some v =>
    simp only [hb, Option.orElse_some, Option.some.injEq] at h
    subst h
    exact fun c hc => isBare_of_isNameChar (bareName?_chars hb c hc)

/-- A bare name consists of name characters, but for a line feed at its end. -/
theorem isBareName_split (h : isBareName name) :
    ∃ n r, bareName? name = some (n, r) ∧ name = n ++ r ∧ (r = [] ∨ r = ['\n']) := by
  unfold isBareName at h
  cases hb : bareName? name with
  | none => rw [hb] at h; cases h
  | some v => exact ⟨v.1, v.2, rfl, (bareName?_split hb).1, by simpa [hb] using h⟩

/-- The name with a dot and a number behind it. -/
def Suffixed (x name : List Char) : Prop :=
  ∃ d ds, name = x ++ '.' :: (ds ++ [d]) ∧ ∀ c ∈ ds ++ [d], isAsciiDigit c

theorem isNameChar_of_isAsciiDigit (h : isAsciiDigit c) : isNameChar c := by
  unfold isAsciiDigit at h
  rw [isNameChar, h, Bool.or_true]

theorem Suffixed.not_isNumberName (h : Suffixed x name) : isNumberName name = false := by
  obtain ⟨d, ds, rfl, -⟩ := h
  have hd : isDigitSign '.' = false := by decide
  simp [isNumberName, hd]

theorem Suffixed.bare (h : Suffixed x name) (hb : isBareName name) : ∀ c ∈ name, isNameChar c := by
  obtain ⟨n, r, hr, hn, rfl | rfl⟩ := isBareName_split hb
  · rw [hn, append_nil]
    exact bareName?_chars hr
  · obtain ⟨d, ds, rfl, hd⟩ := h
    have hn' : (x ++ '.' :: ds) ++ [d] = n ++ ['\n'] := by rw [← hn]; simp
    have hl : d = '\n' := singleton_inj.1 (append_inj' hn' rfl).2
    have hc := hd d (by simp)
    rw [hl] at hc
    exact absurd hc (by decide)

theorem writable_suffixed (h : Suffixed x name) : Writable name := by
  unfold Writable writeName
  rw [h.not_isNumberName]
  cases hb : isBareName name with
  | true => exact ⟨name, .bare fun c hc => isBare_of_isNameChar (h.bare hb c hc), fun c => rfl⟩
  | false => exact ⟨'"' :: escape name ++ ['"'], .quoted (isBody_escape name), fun c => rfl⟩

/-! ## The three changes of texts -/

theorem spelling?_token {bare : List Char → Option (List Char × List Char)}
    (hb : ∀ {s n r}, bare s = some (n, r) → ∀ c ∈ n, isBare c)
    (h : spelling? bare s = some (w, t, r)) : Token t := by
  unfold spelling? at h
  split at h
  all_goals
    obtain ⟨⟨b, u⟩, hp, he⟩ := Option.map_eq_some_iff.1 h
    rw [← (Prod.mk.inj (Prod.mk.inj he).2).1]
  · exact .quoted (isBody_of_closeQuote hp)
  · exact .bare (hb hp)

theorem sigilRead_token {sigil : Char} {bare : List Char → Option (List Char × List Char)}
    (hb : ∀ {s n r}, bare s = some (n, r) → ∀ c ∈ n, isBare c)
    (h : sigilRead sigil bare s = some (w, t, r)) :
    ∃ u, t = sigil :: u ∧ Token u := by
  obtain ⟨s', u, -, rfl, hsp⟩ := sigilRead_eq_some h
  exact ⟨u, rfl, spelling?_token hb hsp⟩

/-- What a renaming writes for a reference. -/
def respell (mark : List Char) (rename : String → Option String) (w : Spelling) (t : List Char) :
    List Char :=
  match rename (String.ofList w.name) with
  | some new => writeName mark new.toList
  | none => t

theorem toList_renameWith (R : Reader Spelling) (mark : String) (rename : String → Option String)
    (text : String) :
    (renameWith R mark rename text).toList = mapReferences R (respell mark.toList rename)
      text.toList :=
  String.toList_ofList

theorem replaces_respell (hc : isSigil c) {R : Reader Spelling}
    (hR : ∀ {s w t r}, R.read s = some (w, t, r) → ∃ u, t = c :: u ∧ Token u)
    (hw : ∀ {x y}, rename x = some y → Writable y.toList) :
    Replaces R (· = c) (respell [c] rename) := by
  intro s w t r h
  obtain ⟨u, rfl, hu⟩ := hR h
  unfold respell
  cases hr : rename (String.ofList w.name) with
  | none => exact ⟨c, u, u, hc, by simp, rfl, rfl, hu, hu⟩
  | some new =>
    obtain ⟨u', hu', he⟩ := hw hr
    exact ⟨c, u, u', hc, by simp, rfl, he c, hu, hu'⟩

theorem renameGlobals_edit (hw : ∀ {x y}, rename x = some y → Writable y.toList)
    (ht : terminated false text.toList) :
    Edit (· = '@') text.toList (renameGlobals rename text).toList := by
  rw [renameGlobals, toList_renameWith]
  exact mapReferences_edit (replaces_respell rfl (sigilRead_token globalName?_chars) hw) ht

theorem renameTypes_edit (hw : ∀ {x y}, rename x = some y → Writable y.toList)
    (ht : terminated false text.toList) :
    Edit (· = '%') text.toList (renameTypes rename text).toList := by
  rw [renameTypes, toList_renameWith]
  exact mapReferences_edit (replaces_respell rfl
    (sigilRead_token fun h c hc => isBare_of_isNameChar (bareName?_chars h c hc)) hw) ht

theorem isAsciiDigit_of_mem_natDigits {n : Nat} (h : c ∈ natDigits n) : isAsciiDigit c := by
  have hd := Nat.isDigit_of_mem_toDigits (by omega) (by omega) h
  simpa [isAsciiDigit, Char.isDigit, Char.le_def] using hd

theorem digitValue?_of_isAsciiDigit {d : Char} (h : isAsciiDigit d) :
    digitValue? d = some (d.toNat - '0'.toNat) := by
  simp only [isAsciiDigit, Bool.and_eq_true, decide_eq_true_eq] at h
  have h1 : 0x30 ≤ d.toNat := h.1
  have h2 : d.toNat ≤ 0x39 := h.2
  have h3 : d.toNat < 0x80 := by omega
  simp [digitValue?, h1, h2, h3]

theorem isDecimal_of_isAsciiDigit {d : Char} (h : isAsciiDigit d) : isDecimal d := by
  rw [isDecimal, digitValue?_of_isAsciiDigit h]
  rfl

/-- A number is read from its digits. -/
theorem digitsValue_natDigits (n : Nat) : digitsValue (natDigits n) = n := by
  have hfold : ∀ (ds : List Char) (k : Nat), (∀ c ∈ ds, isAsciiDigit c) →
      ds.foldl (fun n c => 10 * n + (digitValue? c).getD 0) k = Nat.ofDigitChars 10 ds k := by
    intro ds
    induction ds with
    | nil => exact fun k _ => rfl
    | cons c ds ih =>
      intro k h
      obtain ⟨hc, hds⟩ := forall_mem_cons.1 h
      rw [foldl_cons, digitValue?_of_isAsciiDigit hc, ih _ hds]
      rfl
  rw [digitsValue, hfold _ 0 fun c hc => isAsciiDigit_of_mem_natDigits hc]
  exact Nat.ofDigitChars_toDigits (by omega) (by omega)

theorem isBare_intDigits (i : Int) : ∀ c ∈ intDigits i, isBare c := by
  have hn : ∀ c ∈ natDigits i.natAbs, isBare c := fun c hc =>
    isBare_of_isNameChar (isNameChar_of_isAsciiDigit (isAsciiDigit_of_mem_natDigits hc))
  unfold intDigits
  split_ifs
  · intro c hc
    rcases mem_cons.1 hc with rfl | hc
    · decide
    · exact hn c hc
  · exact hn

theorem intDigits_token (i : Int) : Token (intDigits i) := .bare (isBare_intDigits i)

theorem numberedRead_token {a : Numbered × Nat} (h : numberedRead s = some (a, t, r)) :
    ∃ u, t = a.1.sigil :: u ∧ Token u := by
  obtain ⟨ds, -, rfl, -, -, hds, -⟩ := numberedRead_eq_some h
  exact ⟨ds, rfl, .bare fun d hd => isBare_of_isDecimal (hds d hd)⟩

/-- The sigils of numbered entities. -/
def isNumberSigil (c : Char) : Bool := c = '!' || c = '#'

/-- What renumbering writes for a reference. -/
def renumber (metadataOffset attributeOffset : Int) (a : Numbered × Nat) (_ : List Char) :
    List Char :=
  a.1.sigil :: intDigits (a.2 + match a.1 with
    | .metadata => metadataOffset
    | .attributes => attributeOffset)

theorem toList_shiftNumbered {metadataOffset attributeOffset : Int}
    (h : ¬ (metadataOffset = 0 ∧ attributeOffset = 0))
    (text : String) : (shiftNumbered metadataOffset attributeOffset text).toList =
      mapReferences numberedReader (renumber metadataOffset attributeOffset) text.toList := by
  rw [shiftNumbered, if_neg h, String.toList_ofList]
  rfl

theorem replaces_renumber (k l : Int) : Replaces numberedReader isNumberSigil (renumber k l) := by
  intro s a t r h
  obtain ⟨u, rfl, hu⟩ := numberedRead_token h
  have hk : isNumberSigil a.1.sigil := by cases a.1 <;> rfl
  exact ⟨_, u, _, isSigil_numbered a.1, hk, rfl, rfl, hu, intDigits_token _⟩

theorem shiftNumbered_edit (metadataOffset attributeOffset : Int)
    (ht : terminated false text.toList) :
    Edit isNumberSigil text.toList (shiftNumbered metadataOffset attributeOffset text).toList := by
  by_cases h : metadataOffset = 0 ∧ attributeOffset = 0
  · rw [shiftNumbered, if_pos h]
    exact .refl ht
  · rw [toList_shiftNumbered h]
    exact mapReferences_edit (replaces_renumber _ _) ht

end CallAtlas.Ir
