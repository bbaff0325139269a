import CallAtlas.Proofs.Ir.Edits

/-!
# The references of a text under changes

A text is `Tidy` for a reader if each quote is closed and no reference runs on into a further name
character. In such a text the references can be changed and found again: `renameWith_refNames` says
that the renamed text refers to the new names and is tidy again, provided that the new names read
back, and `Edit.references` that a change of other references changes nothing. `Suffixed.readsBack`
says which names read back: those that a join gives to symbols whose own names survive their written
form.
-/

namespace CallAtlas.Ir

open Text List

variable {b s : List Char} {mark : String}

/-- Whether a text goes on with a name character. -/
def startsName (s : List Char) : Bool := s.head?.any isNameChar

/-- A character that ends whatever reference stands before it and starts none. -/
def isDelimiter (c : Char) : Bool := !isBare c && !isSigil c && c ≠ '"'

/-- Whether a text is at its end or goes on with a delimiter. -/
def delimited (s : List Char) : Bool := s.head?.all isDelimiter

/-- Whether no reference runs on into a name character. -/
def spaced {α : Type} : List (Lexeme α) → Bool
  | [] => true
  | .reference _ _ :: ls => !startsName (ls.flatMap Lexeme.text) && spaced ls
  | .literal _ :: ls => spaced ls
  | .other _ :: ls => spaced ls

/-- Every quote is closed, and no reference runs on into a name character. -/
@[mk_iff] structure Tidy {α : Type} (R : Reader α) (s : List Char) : Prop where
  terminated : terminated false s
  spaced : spaced (lexemes R s)

instance {α : Type} (R : Reader α) (s : List Char) : Decidable (Tidy R s) :=
  decidable_of_iff' _ (tidy_iff ..)

/-- A character that ends whatever reference or word stands before it and starts no reference. -/
def isBreak (c : Char) : Bool := isDelimiter c && !isWord c

/-- Whether a text is at its end or goes on with a break. -/
def breaks (s : List Char) : Bool := s.head?.all isBreak

/-- Two texts that go on with the same character, or with breaks both. -/
def Akin (r r' : List Char) : Prop := r'.head? = r.head? ∨ breaks r ∧ breaks r'

/-- A reader of tokens behind sigils. Where a reference ends is seen from the next character. -/
structure Sighted {α : Type} (R : Reader α) : Prop where
  token : ∀ {s a t r}, R.read s = some (a, t, r) → ∃ c u, t = c :: u ∧ isSigil c ∧ Token u
  swap : ∀ {s a t r r'}, R.read s = some (a, t, r) → Akin r r' → R.read (t ++ r') = some (a, t, r')

/-- A token at the head of the first text is one at the head of the second, and both go on alike. -/
def HeadOf (s s' : List Char) : Prop :=
  ∀ ⦃u r⦄, Token u → s = u ++ r → ∃ r', s' = u ++ r' ∧ Akin r r'

theorem literal?_append {c : Char} {text rest : List Char}
    (h : literal? (c :: s) = some (text, rest)) :
    ∃ t, text = c :: t ∧ (∀ r, literal? (c :: (t ++ r)) = some (text, r)) ∧
      ∀ r, terminated false (c :: (t ++ r)) = terminated false r := by
  have hquote : ∀ {s text rest}, literal? ('"' :: s) = some (text, rest) → ∃ t, text = '"' :: t ∧
      (∀ r, literal? ('"' :: (t ++ r)) = some (text, r)) ∧
      ∀ r, terminated false ('"' :: (t ++ r)) = terminated false r := by
    intro s text rest h
    obtain ⟨⟨b, r⟩, hc, he⟩ := Option.map_eq_some_iff.1 h
    obtain ⟨rfl, rfl⟩ := Prod.mk.inj he
    have hb := isBody_of_closeQuote hc
    refine ⟨b ++ ['"'], rfl, fun r => ?_, fun r => ?_⟩
    · rw [append_assoc, literal?_quote, singleton_append, closeQuote_body hb]
      rfl
    · rw [append_assoc]
      exact terminated_body hb r
  by_cases hq : c = '"'
  · subst hq
    exact hquote h
  · obtain ⟨s', t, rfl, ht, hl⟩ := literal?_tail hq h
    obtain ⟨u, rfl, hu, hv⟩ := hquote hl
    have hc : c = 'c' := by
      by_contra hc
      rw [literal?_cons hq hc] at h
      cases h
    subst hc
    obtain rfl : text = _ := ht
    refine ⟨_, rfl, fun r => ?_, fun r => ?_⟩
    · have hr := hu r
      exact congrArg (Option.map fun p => ('c' :: p.1, p.2)) hr
    · exact hv r

section reader

variable {α : Type} {R : Reader α}

theorem tidy_nil : Tidy R [] := ⟨rfl, by rw [lexemes_nil]; rfl⟩

theorem tidy_literal {c : Char} {text rest : List Char}
    (h : literal? (c :: s) = some (text, rest)) :
    Tidy R (c :: s) ↔ Tidy R rest := by
  obtain ⟨t, rfl, -, ht⟩ := literal?_append h
  have hs : spaced (lexemes R (c :: s)) = spaced (lexemes R rest) := by
    rw [lexemes_literal R h]
    rfl
  have ht : terminated false (c :: s) = terminated false rest := by
    rw [(literal?_split h).1]
    exact ht rest
  rw [tidy_iff, tidy_iff, ht, hs]

theorem tidy_body (hb : IsBody b) : Tidy R ('"' :: b ++ '"' :: s) ↔ Tidy R s := by
  have hl : literal? ('"' :: (b ++ '"' :: s)) = some ('"' :: b ++ ['"'], s) := by
    rw [literal?_quote, closeQuote_body hb]
    rfl
  exact tidy_literal hl

theorem references_body (hb : IsBody b) (s : List Char) :
    references R ('"' :: b ++ '"' :: s) = references R s :=
  references_quote R (closeQuote_body hb s)

theorem tidy_cons {c : Char} (hq : c ≠ '"') (h : R.read (c :: s) = none) :
    Tidy R (c :: s) ↔ Tidy R s := by
  have hs : spaced (lexemes R (c :: s)) = spaced (lexemes R s) := by
    cases hl : literal? (c :: s) with
    | none => rw [lexemes_other R hl h]; rfl
    | some v =>
      obtain ⟨s, t, rfl, -, hl'⟩ := literal?_tail hq hl
      rw [lexemes_literal R hl, lexemes_literal R hl']
      rfl
  rw [tidy_iff, tidy_iff, terminated_cons hq, hs]

theorem tidy_read {c : Char} {u r : List Char} {a : α} (hc : isSigil c) (hu : Token u)
    (h : R.read (c :: u ++ r) = some (a, c :: u, r)) :
    Tidy R (c :: u ++ r) ↔ startsName r = false ∧ Tidy R r := by
  have hl := literal?_cons (s := u ++ r) (isSigil_ne_quote hc) (isSigil_ne_c hc)
  have hs : spaced (lexemes R (c :: u ++ r)) = (!startsName r && spaced (lexemes R r)) := by
    rw [cons_append] at h ⊢
    rw [lexemes_reference R hl h]
    show (!startsName ((lexemes R r).flatMap Lexeme.text) && _) = _
    rw [text_lexemes]
  have ht : terminated false (c :: u ++ r) = terminated false r := by
    rw [cons_append, terminated_cons (isSigil_ne_quote hc), hu.terminated]
  rw [tidy_iff, tidy_iff, ht, hs, Bool.and_eq_true, Bool.not_eq_true', and_left_comm]

/-- Characters that are no quotes and at which nothing is read can be skipped. -/
theorem references_skip {u : List Char} (hu : ∀ c ∈ u, c ≠ '"' ∧ ∀ s, R.read (c :: s) = none)
    (s : List Char) :
    references R (u ++ s) = references R s ∧ (Tidy R (u ++ s) ↔ Tidy R s) := by
  induction u with
  | nil => exact ⟨rfl, Iff.rfl⟩
  | cons c u ih =>
    obtain ⟨⟨hq, hr⟩, hu⟩ := forall_mem_cons.1 hu
    rw [cons_append, references_cons R hq (hr _), tidy_cons hq (hr _)]
    exact ih hu

theorem Sighted.read_none (hR : Sighted R) {c : Char} (hc : isSigil c = false) (s : List Char) :
    R.read (c :: s) = none := by
  cases hr : R.read (c :: s) with
  | none => rfl
  | some v =>
    obtain ⟨d, u, hu, hd, -⟩ := hR.token hr
    obtain ⟨rfl, -⟩ := cons.inj (hu ▸ (R.split hr).1)
    rw [hc] at hd
    cases hd

theorem references_plain_append (hR : Sighted R) {u : List Char}
    (hu : ∀ c ∈ u, c ≠ '"' ∧ isSigil c = false)
    (s : List Char) : references R (u ++ s) = references R s ∧ (Tidy R (u ++ s) ↔ Tidy R s) :=
  references_skip (fun c hc => ⟨(hu c hc).1, hR.read_none (hu c hc).2⟩) s

theorem references_plain (hR : Sighted R) (hs : ∀ c ∈ s, c ≠ '"' ∧ isSigil c = false) :
    references R s = [] := by
  have h := (references_plain_append hR hs []).1
  rwa [append_nil, references_nil] at h

theorem Token.references (hR : Sighted R) {u : List Char} (hu : Token u) (s : List Char) :
    Ir.references R (u ++ s) = Ir.references R s ∧ (Tidy R (u ++ s) ↔ Tidy R s) := by
  cases hu with
  | bare hu => exact references_plain_append hR (fun c hc => isBare_plain (hu c hc)) s
  | @quoted b hb =>
    rw [quoted_append]
    exact ⟨references_body hb s, tidy_body hb⟩

/-- A text refers to what is read at its head and to what the rest refers to. -/
theorem Sighted.references_cons (hR : Sighted R) {c : Char} (hq : c ≠ '"') (s : List Char) :
    references R (c :: s) = ((R.read (c :: s)).map Prod.fst).toList ++ references R s ∧
      (Tidy R (c :: s) ↔ (∀ v ∈ R.read (c :: s), startsName v.2.2 = false) ∧ Tidy R s) := by
  cases hr : R.read (c :: s) with
  | none => exact ⟨Ir.references_cons R hq hr, by simp [tidy_cons hq hr]⟩
  | some v =>
    obtain ⟨a, t, r⟩ := v
    obtain ⟨d, u, rfl, hd, hu⟩ := hR.token hr
    obtain ⟨rfl, hs⟩ := cons.inj (R.split hr).1
    obtain rfl : s = u ++ r := hs
    have h := hu.references hR r
    rw [h.1, h.2]
    exact ⟨references_read R hq (isSigil_ne_c hd) hr, by simpa using tidy_read hd hu hr⟩

theorem Sighted.read_of_headOf (hR : Sighted R) {c : Char} {s' t r : List Char} {a : α}
    (h : HeadOf s s')
    (hr : R.read (c :: s) = some (a, t, r)) :
    ∃ r', R.read (c :: s') = some (a, t, r') ∧ Akin r r' := by
  obtain ⟨d, u, rfl, -, hu⟩ := hR.token hr
  obtain ⟨rfl, hs⟩ := cons.inj (R.split hr).1
  obtain ⟨r', rfl, ha⟩ := h hu hs
  exact ⟨r', hR.swap hr ha, ha⟩

theorem Sighted.read_none_of_headOf (hR : Sighted R) {c : Char} {s' : List Char} (h : HeadOf s' s)
    (hr : R.read (c :: s) = none) : R.read (c :: s') = none := by
  cases hr' : R.read (c :: s') with
  | none => rfl
  | some v =>
    obtain ⟨r, hr'', -⟩ := hR.read_of_headOf h hr'
    rw [hr] at hr''
    cases hr''

/-- The same is read in two texts with the same tokens at their heads. -/
theorem Sighted.read_rel (hR : Sighted R) {s' : List Char} (h : HeadOf s s') (h' : HeadOf s' s)
    (c : Char) :
    Option.Rel (fun v v' => v'.1 = v.1 ∧ Akin v.2.2 v'.2.2) (R.read (c :: s))
      (R.read (c :: s')) := by
  cases hr : R.read (c :: s) with
  | some v =>
    obtain ⟨r', hr', ha⟩ := hR.read_of_headOf h hr
    rw [hr']
    exact .some ⟨rfl, ha⟩
  | none =>
    rw [hR.read_none_of_headOf h' hr]
    exact .none

theorem startsName_of_breaks (h : breaks s) : startsName s = false := by
  cases s with
  | nil => rfl
  | cons c s =>
    simp only [breaks, isBreak, isDelimiter, isBare, head?_cons, Option.all_some, Bool.and_eq_true,
      Bool.not_eq_true', Bool.or_eq_false_iff] at h
    exact h.1.1.1.1

theorem Akin.symm {r r' : List Char} (h : Akin r r') : Akin r' r := h.imp Eq.symm And.symm

theorem Akin.startsName_eq {r r' : List Char} (h : Akin r r') : startsName r' = startsName r := by
  rcases h with h | ⟨h, h'⟩
  · rw [startsName, h, startsName]
  · rw [startsName_of_breaks h, startsName_of_breaks h']

/-- Putting a character before two texts with the same tokens at their heads adds the same
reference. -/
theorem Sighted.references_congr (hR : Sighted R) {c : Char} {s' : List Char} (hq : c ≠ '"')
    (h : HeadOf s s')
    (h' : HeadOf s' s) : ∃ ws, references R (c :: s) = ws ++ references R s ∧
      references R (c :: s') = ws ++ references R s' ∧
      ∃ P, (Tidy R (c :: s) ↔ P ∧ Tidy R s) ∧ (Tidy R (c :: s') ↔ P ∧ Tidy R s') := by
  have hrel := hR.read_rel h h' c
  obtain ⟨h1, h2⟩ := hR.references_cons hq s
  obtain ⟨h3, h4⟩ := hR.references_cons hq s'
  generalize R.read (c :: s) = o, R.read (c :: s') = o' at hrel h1 h2 h3 h4
  cases hrel with
  | none => exact ⟨_, h1, h3, _, h2, h4⟩
  | some hv =>
    rw [Option.map_some, hv.1] at h3
    simp only [Option.mem_some_iff, forall_eq', hv.2.startsName_eq] at h2 h4
    exact ⟨_, h1, h3, _, h2, h4⟩

end reader

variable {n r s s' u : List Char} {p : Char → Bool} {rename : String → Option String}
variable {bare : List Char → Option (List Char × List Char)} {c : Char} {R : Reader Spelling}

/-! ## Readers of one sigil -/

/-- The second text goes on as the first one does, or with no character of bare names. -/
def Follows (r r' : List Char) : Prop := r'.head? = r.head? ∨ r'.head?.any isBare = false

/-- A reader of spellings behind one sigil. Where a spelling ends is seen from the character behind
it. -/
structure Sigiled (R : Reader Spelling) (c : Char) : Prop where
  sigil : isSigil c
  token : ∀ {s w t r}, R.read s = some (w, t, r) → ∃ u, t = c :: u ∧ Token u
  swap : ∀ {s w t r r'}, R.read s = some (w, t, r) → Follows r r' →
    R.read (t ++ r') = some (w, t, r')

/-- What bare names have to be for that. -/
structure BareForm (bare : List Char → Option (List Char × List Char)) : Prop where
  chars : ∀ {s n r}, bare s = some (n, r) → ∀ c ∈ n, isBare c
  swap : ∀ {s n r r'}, bare s = some (n, r) → Follows r r' → bare (n ++ r') = some (n, r')
  nonempty : ∀ {s n r}, bare s = some (n, r) → s = n ++ r ∧ n ≠ []

theorem spelling?_quote (s : List Char) :
    spelling? bare ('"' :: s) = (closeQuote s).map fun p =>
  (.quoted p.1, '"' :: p.1 ++ ['"'], p.2) := rfl

theorem spelling?_bare (hs : s.head? ≠ some '"') :
    spelling? bare s = (bare s).map fun p => (.bare p.1, p.1, p.2) := by
  unfold spelling?
  split
  · exact absurd rfl hs
  · rfl

theorem BareForm.head_ne_quote (hb : BareForm bare)
    (h : bare s = some (n, r)) (r' : List Char) : (n ++ r').head? ≠ some '"' := by
  obtain ⟨-, hne⟩ := hb.nonempty h
  cases n with
  | nil => exact absurd rfl hne
  | cons c n =>
    intro he
    exact isBare_ne_quote (hb.chars h c mem_cons_self) (Option.some.inj he)

theorem delimited_of_breaks {s : List Char} (h : breaks s) : delimited s := by
  cases s with
  | nil => rfl
  | cons c s => exact (Bool.and_eq_true _ _ ▸ h : isDelimiter c ∧ _).1

theorem delimited_head (h : delimited s) (hc : s.head? = some c) :
    isBare c = false ∧ isSigil c = false ∧ c ≠ '"' := by
  rw [delimited, hc] at h
  simpa [isDelimiter, and_assoc] using h

theorem any_isBare_of_delimited (h : delimited s) : s.head?.any isBare = false := by
  cases hc : s.head? with
  | none => rfl
  | some c => exact (delimited_head h hc).1

theorem Follows.any_eq_false {r' : List Char} (h : Follows r r') (hp : ∀ c, p c → isBare c)
    (hr : r.head?.any p = false) : r'.head?.any p = false := by
  rcases h with h | h
  · rwa [h]
  · cases hc : r'.head? with
    | none => rfl
    | some c =>
      rw [hc] at h
      exact Bool.eq_false_iff.2 fun hpc => Bool.eq_false_iff.1 h (hp c hpc)

theorem read_sigil (hR : R.read = sigilRead c bare) (s : List Char) :
    R.read (c :: s) = (spelling? bare s).map fun p => (p.1, c :: p.2.1, p.2.2) := by
  rw [hR]
  simp [sigilRead]

theorem read_quoted (hR : R.read = sigilRead c bare) (hb : IsBody b) (r : List Char) :
    R.read (c :: ('"' :: b ++ ['"']) ++ r) = some (.quoted b, c :: ('"' :: b ++ ['"']), r) := by
  have hs : c :: ('"' :: b ++ ['"']) ++ r = c :: '"' :: (b ++ '"' :: r) := by simp
  rw [hs, read_sigil hR, spelling?_quote, closeQuote_body hb]
  rfl

theorem read_bare (hR : R.read = sigilRead c bare) (hb : BareForm bare)
    (h : bare (n ++ r) = some (n, r)) : R.read (c :: n ++ r) = some (.bare n, c :: n, r) := by
  rw [cons_append, read_sigil hR, spelling?_bare (hb.head_ne_quote h r), h]
  rfl

theorem BareForm.sigiled (hb : BareForm bare) (hR : R.read = sigilRead c bare) (hc : isSigil c) :
    Sigiled R c := by
  refine ⟨hc, fun h => sigilRead_token hb.chars (hR ▸ h), ?_⟩
  intro s w t r r' h hr
  rw [hR] at h
  obtain ⟨s', u, -, rfl, hs⟩ := sigilRead_eq_some h
  by_cases hq : s'.head? = some '"'
  · obtain ⟨s'', rfl⟩ : ∃ v, s' = '"' :: v := by
      cases s' with
      | nil => cases hq
      | cons d v => exact ⟨v, by rw [Option.some.inj hq]⟩
    obtain ⟨⟨b, v⟩, hcl, he⟩ := Option.map_eq_some_iff.1 hs
    obtain ⟨rfl, rfl, rfl⟩ := he
    exact read_quoted hR (isBody_of_closeQuote hcl) r'
  · rw [spelling?_bare hq] at hs
    obtain ⟨⟨n, v⟩, hn, he⟩ := Option.map_eq_some_iff.1 hs
    obtain ⟨rfl, rfl, rfl⟩ := he
    exact read_bare hR hb (hb.swap hn hr)

theorem run_append (hu : ∀ c ∈ u, p c) (hr : r.head?.any p = false) :
    (u ++ r).takeWhile p = u ∧ (u ++ r).dropWhile p = r := by
  have hr' : r.takeWhile p = [] ∧ r.dropWhile p = r := by
    cases r with
    | nil => exact ⟨rfl, rfl⟩
    | cons c r =>
      have hc : p c = false := hr
      simp [hc]
  rw [takeWhile_append_of_pos hu, dropWhile_append_of_pos hu, hr'.1, hr'.2, append_nil]
  exact ⟨rfl, rfl⟩

theorem trimLeft_append (hu : ∀ c ∈ u, isBlank c) (hr : r.head?.any isBlank = false) :
    trimLeft (u ++ r) = r :=
  (run_append hu hr).2

theorem trimLeft_of_head (h : r.head?.any isBlank = false) : trimLeft r = r :=
  trimLeft_append (fun _ hc => absurd hc not_mem_nil) h

theorem bareName?_cons (hc : isNameStart c) (hu : ∀ d ∈ u, isNameChar d)
    (hr : startsName r = false) : bareName? (c :: u ++ r) = some (c :: u, r) := by
  obtain ⟨h1, h2⟩ := run_append hu hr
  rw [cons_append, bareName?, if_pos hc, h1, h2]

theorem bareName?_eq_some (h : bareName? s = some (n, r)) :
    ∃ c u, n = c :: u ∧ isNameStart c ∧ (∀ d ∈ u, isNameChar d) ∧ startsName r = false := by
  cases s with
  | nil => cases h
  | cons c s =>
    by_cases hc : isNameStart c
    · simp only [bareName?, hc] at h
      obtain ⟨rfl, rfl⟩ := h
      exact ⟨c, _, rfl, hc, fun d hd => mem_takeWhile_imp hd, head?_dropWhile_any isNameChar s⟩
    · simp [bareName?, hc] at h

theorem bareName?_eq_none : bareName? s = none ↔ s.head?.any isNameStart = false := by
  cases s with
  | nil => simp [bareName?]
  | cons c s => by_cases hc : isNameStart c = true <;> simp [bareName?]

theorem run?_append (hne : n ≠ []) (hn : ∀ c ∈ n, p c)
    (hr : r.head?.any p = false) : run? p (n ++ r) = some (n, r) := by
  obtain ⟨h1, h2⟩ := run_append hn hr
  unfold run?
  rw [h1, h2]
  split
  · next he => exact absurd rfl hne
  · rfl

theorem run?_eq_none : run? p s = none ↔ s.head?.any p = false := by
  cases s with
  | nil => simp [run?]
  | cons c s => by_cases hc : p c = true <;> simp [run?, hc]

theorem bareForm_bareName? : BareForm bareName? := by
  refine ⟨fun h c hc => isBare_of_isNameChar (bareName?_chars h c hc), ?_, bareName?_split⟩
  intro s n r r' h hr
  obtain ⟨c, u, rfl, hc, hu, hs⟩ := bareName?_eq_some h
  exact bareName?_cons hc hu (hr.any_eq_false (fun _ => isBare_of_isNameChar) hs)

theorem bareForm_globalName? : BareForm globalName? := by
  refine ⟨globalName?_chars, ?_, globalName?_split⟩
  · intro s n r r' h hr
    unfold globalName? at h ⊢
    cases hb : bareName? s with
    | some v =>
      simp only [hb, Option.orElse_some, Option.some.injEq] at h
      subst h
      rw [bareForm_bareName?.swap hb hr]
      rfl
    | none =>
      simp only [hb] at h
      obtain ⟨hne, hn, hs⟩ := run?_eq_some h
      have hb' : bareName? (n ++ r') = none := by
        rwa [(run?_split h).1, bareName?_eq_none, head?_append_of_ne_nil _ hne,
          ← head?_append_of_ne_nil n hne, ← bareName?_eq_none] at hb
      rw [hb']
      exact run?_append hne hn (hr.any_eq_false (fun _ => isBare_of_isDecimal) hs)

theorem sigiled_globalReader : Sigiled globalReader '@' := bareForm_globalName?.sigiled rfl rfl

theorem sigiled_typeReader : Sigiled typeReader '%' := bareForm_bareName?.sigiled rfl rfl

theorem Sigiled.sighted (hR : Sigiled R c) : Sighted R where
  token h := by
    obtain ⟨u, ht, hu⟩ := hR.token h
    exact ⟨c, u, ht, hR.sigil, hu⟩
  swap h ha := hR.swap h (ha.imp_right fun hb => any_isBare_of_delimited (delimited_of_breaks hb.2))

/-! ## Changing other references -/

theorem Sigiled.read_none (hR : Sigiled R c) {d : Char} (hd : d ≠ c) (s : List Char) :
    R.read (d :: s) = none := by
  cases hr : R.read (d :: s) with
  | none => rfl
  | some v =>
    obtain ⟨u, hu, -⟩ := hR.token hr
    have hs := (R.split hr).1
    rw [hu] at hs
    exact absurd (cons.inj hs).1 hd

theorem Sigiled.spared (hR : Sigiled R c) (hc : p c = false) (d : Char) (hd : p d) (s : List Char) :
    R.read (d :: s) = none := by
  refine hR.read_none ?_ s
  rintro rfl
  rw [hc] at hd
  cases hd

theorem Token.edit_inv (hu : Token u) (h : Edit p (u ++ r) s') :
    ∃ r', s' = u ++ r' ∧ Edit p r r' := by
  cases hu with
  | bare hu =>
    exact h.run_inv (plain_apart fun d hd => isBare_plain (hu d hd))
  | @quoted b hb =>
    rw [append_assoc] at h
    obtain ⟨r', rfl, hr⟩ := h.body_inv hb
    exact ⟨r', by simp, hr⟩

theorem Edit.headOf (h : Edit p s s') : HeadOf s s' := by
  rintro u r hu rfl
  obtain ⟨r', rfl, hr⟩ := hu.edit_inv h
  exact ⟨r', rfl, .inl hr.head?_eq⟩

theorem Edit.references {α : Type} {R : Reader α} (hR : Sighted R)
    (hp : ∀ c, p c → ∀ s, R.read (c :: s) = none)
    (h : Edit p s s') : references R s' = references R s ∧ (Tidy R s' ↔ Tidy R s) := by
  induction h with
  | nil => exact ⟨rfl, Iff.rfl⟩
  | char hq h ih =>
    obtain ⟨ws, h1, h2, P, h3, h4⟩ := hR.references_congr hq h.headOf h.symm.headOf
    rw [h1, h2, h3, h4, ih.1, ih.2]
    exact ⟨rfl, Iff.rfl⟩
  | literal hb _ ih => rwa [references_body hb, references_body hb, tidy_body hb, tidy_body hb]
  | @token c u u' s s' hc hpc hu hu' _ ih =>
    have hskip (u : List Char) := references_skip (u := [c])
      (forall_mem_singleton.2 ⟨isSigil_ne_quote hc, hp c hpc⟩) u
    have h1 := hu.references hR s
    have h2 := hu'.references hR s'
    rw [cons_append, cons_append, ← singleton_append, (hskip _).1, (hskip _).2, ← singleton_append,
      (hskip _).1, (hskip _).2, h1.1, h1.2, h2.1, h2.2]
    exact ih

/-! ## Renaming -/

/-- The names that a text refers to. -/
def refNames (R : Reader Spelling) (text : String) : List String :=
  (references R text.toList).map fun w => String.ofList w.name

theorem globalRefs_eq (text : String) : globalRefs text = (refNames globalReader text).eraseDups :=
  rfl

/-- The written form of a name is read as that name, if no name character follows. -/
def ReadsBack (R : Reader Spelling) (c : Char) (name : List Char) : Prop :=
  ∀ r, startsName r = false →
    ∃ w, R.read (writeName [c] name ++ r) = some (w, writeName [c] name, r) ∧ w.name = name

/-- A lexeme and the same with another name in the place of a reference. -/
inductive Renewed (new : List Char → List Char) : Lexeme Spelling → Lexeme Spelling → Prop
  | literal (t : List Char) : Renewed new (.literal t) (.literal t)
  | other (c : Char) : Renewed new (.other c) (.other c)
  | reference {w w' : Spelling} {t t' : List Char} (h : w'.name = new w.name) :
    Renewed new (.reference w t) (.reference w' t')

theorem references_renewed {new : List Char → List Char}
    (h : List.Forall₂ (Renewed new) (lexemes R s) (lexemes R s')) :
    (references R s').map Spelling.name = ((references R s).map Spelling.name).map new := by
  unfold references
  generalize lexemes R s = ls at h ⊢
  generalize lexemes R s' = ls' at h ⊢
  induction h with
  | nil => rfl
  | cons h _ ih =>
    cases h with
    | literal t => exact ih
    | other c => exact ih
    | reference h => exact congrArg₂ cons h ih

/-- Where no literal with a `c` before its quotes stands, none stands before the same tokens. -/
theorem literal?_none_of_headOf (hq : c ≠ '"') (h : HeadOf s' s) (hl : literal? (c :: s) = none) :
    literal? (c :: s') = none := by
  cases hl' : literal? (c :: s') with
  | none => rfl
  | some v =>
    obtain ⟨u, t, hs, ht, hq⟩ := literal?_tail hq hl'
    obtain ⟨⟨b, r⟩, hb, he⟩ := Option.map_eq_some_iff.1 hq
    obtain ⟨rfl, -⟩ := Prod.mk.inj he
    obtain ⟨t, hv, hall, -⟩ := literal?_append hl'
    obtain rfl := (cons.inj (ht.symm.trans hv)).2
    obtain ⟨r', rfl, -⟩ :=
      h (.quoted (isBody_of_closeQuote hb)) (cons.inj (hv ▸ (literal?_split hl').1)).2
    rw [hall] at hl
    cases hl

/-- Replaced references are found again under their new names, and everything else as it was. -/
theorem lexemes_mapReferences (hR : Sigiled R c) {ls : List (Lexeme Spelling)}
    {f : Spelling → List Char → List Char} (new : List Char → List Char) (hf : Replaces R p f)
    (hnew : ∀ {s w t r r'}, .reference w t :: lexemes R r <:+ ls → R.read s = some (w, t, r) →
      startsName r = false →
      r'.head? = r.head? → ∃ w', R.read (f w t ++ r') = some (w', f w t, r') ∧ w'.name = new w.name)
    (hls : lexemes R s <:+ ls) (hs : Tidy R s) :
    List.Forall₂ (Renewed new) (lexemes R s) (lexemes R (mapReferences R f s)) ∧
    Tidy R (mapReferences R f s) := by
  fun_induction lexemes R s with
  | case1 =>
    rw [mapReferences_nil, lexemes_nil]
    exact ⟨.nil, tidy_nil⟩
  | case2 d s text rest h ih =>
    obtain ⟨ih1, ih2⟩ := ih ((suffix_cons ..).trans hls) ((tidy_literal h).1 hs)
    obtain ⟨t, rfl, ht, -⟩ := literal?_append h
    have hm : mapReferences R f (d :: s) = d :: (t ++ mapReferences R f rest) := by
      simp [mapReferences, lexemes_literal R h, Lexeme.text]
    rw [hm, lexemes_literal R (ht _)]
    exact ⟨.cons (.literal _) ih1, (tidy_literal (ht _)).2 ih2⟩
  | case3 d s hl w t r hr ih =>
    obtain ⟨u, rfl, hu⟩ := hR.token hr
    have hsplit := (R.split hr).1
    obtain ⟨rfl, rfl⟩ := cons.inj hsplit
    obtain ⟨e, v, u', he, -, hev, hfu, -, hu'⟩ := hf hr
    obtain ⟨rfl, rfl⟩ := cons.inj hev
    obtain ⟨hsr, hs'⟩ := (tidy_read he hu hr).1 hs
    obtain ⟨ih1, ih2⟩ := ih ((suffix_cons ..).trans hls) hs'
    have hh := (mapReferences_edit hf hs'.terminated).head?_eq
    obtain ⟨w', hr', hw'⟩ := hnew hls hr hsr hh
    have hq := isSigil_ne_quote he
    have hcc := isSigil_ne_c he
    rw [mapReferences_read R f hq hcc hr]
    rw [hfu] at hr' ⊢
    refine ⟨?_, (tidy_read he hu' hr').2 ⟨?_, ih2⟩⟩
    · rw [cons_append] at hr' ⊢
      rw [lexemes_reference R (literal?_cons hq hcc) hr']
      exact .cons (.reference hw') ih1
    · rwa [startsName, hh]
  | case4 d s hl hr ih =>
    have hq : d ≠ '"' := by
      rintro rfl
      obtain ⟨b, r, hb, rfl, -⟩ := terminated_quote.1 hs.terminated
      rw [literal?_quote, closeQuote_body hb] at hl
      cases hl
    have hs' := (tidy_cons hq hr).1 hs
    obtain ⟨ih1, ih2⟩ := ih ((suffix_cons ..).trans hls) hs'
    have hh := (mapReferences_edit hf hs'.terminated).symm.headOf
    have hr' := hR.sighted.read_none_of_headOf hh hr
    rw [mapReferences_cons R f hq hr, lexemes_other R (literal?_none_of_headOf hq hh hl) hr',
      tidy_cons hq hr']
    exact ⟨.cons (.other d) ih1, ih2⟩

/-- The new name of a reference, in characters. -/
def renewal (rename : String → Option String) (name : List Char) : List Char :=
  ((rename (String.ofList name)).getD (String.ofList name)).toList

/-- What is written for a reference is read as its new name. -/
theorem Sigiled.read_respell (hR : Sigiled R c)
    (hw : ∀ {x y}, rename x = some y → ReadsBack R c y.toList) {t r' : List Char} {w : Spelling}
    (hr : R.read s = some (w, t, r)) (hsr : startsName r = false) (hh : r'.head? = r.head?) :
    ∃ w', R.read (respell [c] rename w t ++ r') = some (w', respell [c] rename w t, r') ∧
      w'.name = renewal rename w.name := by
  unfold respell renewal
  cases hx : rename (String.ofList w.name) with
  | none => exact ⟨w, hR.swap hr (.inl hh), by rw [Option.getD_none, String.toList_ofList]⟩
  | some y => exact hw hx r' (by rwa [startsName, hh])

theorem refNames_renewed {text text' : String}
    (h : List.Forall₂ (Renewed (renewal rename)) (lexemes R text.toList) (lexemes R text'.toList)) :
    refNames R text' = (refNames R text).map (fun x => (rename x).getD x) := by
  have hl := congrArg (map String.ofList) (references_renewed h)
  simpa only [refNames, renewal, map_map, Function.comp_def, String.ofList_toList] using hl

section renamed

variable (hR : Sigiled R c) (hm : mark.toList = [c])
  (hw : ∀ {x y}, rename x = some y → Writable y.toList ∧ ReadsBack R c y.toList) {text : String}
  (ht : Tidy R text.toList)

include hR hm hw ht

theorem lexemes_renameWith :
    List.Forall₂ (Renewed (renewal rename)) (lexemes R text.toList)
      (lexemes R (renameWith R mark rename text).toList) ∧
      Tidy R (renameWith R mark rename text).toList := by
  have hf : Replaces R (· = c) (respell [c] rename) :=
    replaces_respell hR.sigil hR.token fun h => (hw h).1
  rw [toList_renameWith, hm]
  exact lexemes_mapReferences hR (renewal rename) hf (fun _ => hR.read_respell fun h => (hw h).2)
    suffix_rfl ht

theorem renameWith_refNames :
    refNames R (renameWith R mark rename text) =
      (refNames R text).map (fun x => (rename x).getD x) ∧
      Tidy R (renameWith R mark rename text).toList := by
  obtain ⟨h1, h2⟩ := lexemes_renameWith hR hm hw ht
  exact ⟨refNames_renewed h1, h2⟩

end renamed

/-! ## Names that read back -/

theorem isPrintable_of_isBare (h : isBare c) : isPrintable c := by
  rw [isPrintable_eq]
  exact inRanges_of_append (by decide +kernel) (by decide +kernel) (isBare_inRanges h)

theorem escape_bare {x : List Char} (hx : ∀ c ∈ x, isBare c) : escape x = x ∧ unescape x = x := by
  have hc : ∀ c ∈ x, escapeChar c = [c] ∧ c ≠ '\\' := by
    intro c hc
    have hb := hx c hc
    have hs : c ≠ '\\' := by
      rintro rfl
      revert hb
      decide
    exact ⟨by simp [escapeChar, isBare_ne_quote hb, hs, isPrintable_of_isBare hb], hs⟩
  constructor
  · unfold escape
    rw [flatMap_congr fun c h => (hc c h).1]
    simp
  · have hu := unescape_plain (fun c h => (hc c h).2) []
    simpa [unescape] using hu

/-- The name is found again in its escaped form. -/
def Legible (x : List Char) : Prop := unescape (escape x) = x

section sigil

variable {R : Reader Spelling} {c : Char} {bare : List Char → Option (List Char × List Char)}

/-- A new name reads back if the old one is legible. -/
theorem Suffixed.readsBack (hR : R.read = sigilRead c bare) (hb : BareForm bare)
    (hn : ∀ {s v}, bareName? s = some v → bare s = some v) {x name : List Char}
    (h : Suffixed x name) (hx : Legible x) : ReadsBack R c name := by
  intro r hr
  unfold writeName
  rw [h.not_isNumberName]
  cases hbn : isBareName name with
  | true =>
    have hc := h.bare hbn
    have hbare : bareName? (name ++ r) = some (name, r) := by
      unfold isBareName at hbn
      cases name with
      | nil => cases hbn
      | cons d u =>
        have hd : isNameStart d := by
          by_contra hd
          simp [bareName?, hd] at hbn
        exact bareName?_cons hd (fun e he => hc e (mem_cons_of_mem _ he)) hr
    exact ⟨.bare name, read_bare hR hb (hn hbare), rfl⟩
  | false =>
    refine ⟨.quoted (escape name), read_quoted hR (isBody_escape name) r, ?_⟩
    obtain ⟨d, ds, rfl, hd⟩ := h
    have hsuffix : ∀ e ∈ '.' :: (ds ++ [d]), isBare e := by
      intro e he
      rcases mem_cons.1 he with rfl | he
      · decide
      · exact isBare_of_isNameChar (isNameChar_of_isAsciiDigit (hd e he))
    show unescape (escape (x ++ '.' :: (ds ++ [d]))) = _
    rw [escape, flatMap_append]
    show unescape (escape x ++ escape ('.' :: (ds ++ [d]))) = _
    rw [unescape_escape_append, hx, (escape_bare hsuffix).1, (escape_bare hsuffix).2]

theorem toList_quoteName (sigil name : String) (h : sigil.toList = [c]) :
    (quoteName name sigil).toList = c :: writeName [] name.toList := by
  rw [quoteName, String.toList_ofList, h, writeName_cons]

theorem spelling?_body (hb : IsBody b) (s : List Char) :
    spelling? bare ('"' :: b ++ '"' :: s) = some (.quoted b, '"' :: b ++ ['"'], s) := by
  rw [cons_append, spelling?_quote, closeQuote_body hb]
  rfl

theorem unquoted_plain (hw : (isBareName s || isNumberName s) = true) :
    ∀ d ∈ s, d ≠ '"' ∧ isSigil d = false := by
  rcases Bool.or_eq_true _ _ ▸ hw with hb | hn
  · obtain ⟨n, r, h, hs, hr⟩ := isBareName_split hb
    rw [hs]
    refine forall_mem_append.2 ⟨fun d hd => ?_, ?_⟩
    · have hd := isBare_of_isNameChar (bareName?_chars h d hd)
      exact ⟨isBare_ne_quote hd, isBare_isSigil hd⟩
    · rcases hr with rfl | rfl
      · exact forall_mem_nil _
      · exact forall_mem_singleton.2 ⟨by decide, by decide⟩
  · rw [isNumberName, Bool.and_eq_true] at hn
    exact fun d hd => plain_of_class (by decide) (all_eq_true.1 hn.2 d hd)

theorem unquoted_head (hw : (isBareName s || isNumberName s) = true) (t : List Char) :
    (s ++ t).head? ≠ some '"' := by
  cases s with
  | nil => cases hw
  | cons d s => exact fun h => (unquoted_plain hw d mem_cons_self).1 (Option.some.inj h)

theorem writeName_unquoted (hw : (isBareName s || isNumberName s) = true) : writeName [] s = s :=
  if_pos hw

theorem writeName_quoted (hw : ¬ (isBareName s || isNumberName s) = true) :
    writeName [] s = '"' :: escape s ++ ['"'] :=
  if_neg hw

theorem spelling?_unquoted (hw : (isBareName s || isNumberName s) = true) :
    spelling? bare s = (bare s).map fun p => (.bare p.1, p.1, p.2) := by
  have h := unquoted_head hw []
  rw [append_nil] at h
  exact spelling?_bare h

/-- The only reference in a written name is the name, as it is read back. -/
theorem references_writeName (hR : R.read = sigilRead c bare) (hb : BareForm bare) (hc : isSigil c)
    (s : List Char) :
    references R (c :: writeName [] s) =
      ((spelling? bare (writeName [] s)).map Prod.fst).toList := by
  have hq := isSigil_ne_quote hc
  have hread := read_sigil hR (writeName [] s)
  by_cases hw : (isBareName s || isNumberName s) = true
  · have hplain := unquoted_plain hw
    rw [writeName_unquoted hw, spelling?_unquoted hw] at hread ⊢
    cases h : bare s with
    | none =>
      rw [h] at hread
      rw [references_cons R hq hread, references_plain (hb.sigiled hR hc).sighted hplain]
      rfl
    | some v =>
      rw [h] at hread
      rw [references_read R hq (isSigil_ne_c hc) hread,
        references_plain (hb.sigiled hR hc).sighted fun d hd =>
        hplain d ((hb.nonempty h).1 ▸ mem_append_right _ hd)]
      rfl
  · rw [writeName_quoted hw, spelling?_body (isBody_escape s)] at hread ⊢
    rw [references_read R hq (isSigil_ne_c hc) hread, references_nil]
    rfl

theorem legible_of_refNames (hR : R.read = sigilRead c bare) (hb : BareForm bare) (hc : isSigil c)
    (hm : mark.toList = [c]) {x : String} (h : (refNames R (quoteName x mark)).head? = some x) :
    Legible x.toList := by
  rw [refNames, toList_quoteName mark x hm, references_writeName hR hb hc] at h
  unfold writeName at h
  split_ifs at h with hw
  · rw [nil_append, spelling?_unquoted hw] at h
    cases hx : bare x.toList with
    | none => rw [hx] at h; cases h
    | some v =>
      rw [hx] at h
      have hn : v.1 = x.toList := by
        rw [← String.toList_ofList (l := v.1)]; exact congrArg _ (Option.some.inj h)
      obtain ⟨h1, h2⟩ := escape_bare (hn ▸ hb.chars hx)
      rw [Legible, h1, h2]
  · rw [nil_append, spelling?_body (isBody_escape _)] at h
    have hn := congrArg String.toList (Option.some.inj h)
    rwa [String.toList_ofList] at hn

end sigil

end CallAtlas.Ir
