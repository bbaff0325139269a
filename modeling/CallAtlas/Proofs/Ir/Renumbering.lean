import CallAtlas.Proofs.Ir.Attachments

/-!
# Renumbered texts

Shifting the numbers of a text leaves everything else to be read as it was: a quote is closed if it
was, `closeQuote_renumbered`, and the same tokens stand at the head of the text,
`headOf_renumbered`. So the lexemes of the shifted text are those of the text with their numbers
moved, `lexemes_renumbered`, and its names are the same, `references_renumbered`. The quotes of the
text need not be closed.
-/

namespace CallAtlas.Ir

open Text List

variable {c : Char} {k l : Nat} {r s u : List Char}

/-- The number after renumbering. -/
def moved (k l : Nat) : Numbered × Nat → Numbered × Nat
  | (.metadata, n) => (.metadata, n + k)
  | (.attributes, n) => (.attributes, n + l)

def renumbered (k l : Nat) (s : List Char) : List Char :=
  mapReferences numberedReader (renumber k l) s

theorem renumber_eq (k l : Nat) (a : Numbered × Nat) (t : List Char) :
    renumber k l a t = a.1.sigil :: natDigits (moved k l a).2 := by
  obtain ⟨kind, n⟩ := a
  cases kind <;> exact congrArg (cons _) (intDigits_add n _)

theorem isBare_of_mem_natDigits {n : Nat} (h : c ∈ natDigits n) : isBare c :=
  isBare_of_isDecimal (isDecimal_of_mem_natDigits h)

/-! ## Quotes -/

/-- What has become of a quote: a backslash may have been read behind it, or a backslash and a line
feed. -/
inductive Quote where
  | opened
  | escaped
  | closed
  | broken

def Quote.step : Quote → Char → Quote
  | .opened, c => if c = '"' then .closed else if c = '\\' then .escaped else .opened
  | .escaped, c => if c = '\n' then .broken else .opened
  | .closed, _ => .closed
  | .broken, _ => .broken

theorem closeQuote_isSome (s : List Char) :
    (closeQuote s).isSome ↔ s.foldl Quote.step .opened = .closed := by
  fun_induction closeQuote s with
  | case1 => simp
  | case2 s => exact iff_of_true rfl (foldl_fixed' (fun _ => rfl) s)
  | case3 s =>
    have hb : s.foldl Quote.step .broken = .broken := foldl_fixed' (fun _ => rfl) s
    simp [Quote.step, hb]
  | case4 c s hc ih => simpa [Quote.step, show c ≠ '\n' from hc] using ih
  | case5 => simp [Quote.step]
  | case6 c s hq _ hs he ih =>
    simpa [Quote.step, show c ≠ '"' from hq, ne_backslash hs he] using ih

/-- Bare characters behind a sigil make no difference. -/
theorem foldl_step_token (q : Quote) (hc : isSigil c) (hu : ∀ d ∈ u, isBare d) :
    (c :: u).foldl Quote.step q = q.step c := by
  have hne : ∀ d ∈ ['\\'], c ≠ d := ne_of_class (by decide) hc
  have hq : q.step c ≠ .escaped := by cases q <;> simp [Quote.step] <;> grind
  rw [foldl_cons]
  generalize q.step c = q at hq
  induction u with
  | nil => rfl
  | cons d u ih =>
    obtain ⟨hd, hu⟩ := forall_mem_cons.1 hu
    have hne : ∀ e ∈ ['"', '\\'], d ≠ e := ne_of_class (by decide) hd
    have hs : q.step d = q := by cases q <;> simp_all [Quote.step]
    rw [foldl_cons, hs, ih hu]

theorem foldl_step_renumbered (q : Quote) (s : List Char) :
    (renumbered k l s).foldl Quote.step q = s.foldl Quote.step q := by
  unfold renumbered mapReferences
  fun_induction lexemes numberedReader s generalizing q with
  | case1 => rfl
  | case2 c s text rest h ih =>
    rw [flatMap_cons, foldl_append, ih, (literal?_split h).1, foldl_append]
    rfl
  | case3 c s _ a text rest h ih =>
    obtain ⟨ds, hs, -, -, -, hds, -⟩ := numberedRead_eq_some (show numberedRead (c :: s) = _ from h)
    have hk := isSigil_numbered a.1
    rw [flatMap_cons, foldl_append, ih, hs, foldl_append,
      foldl_step_token q hk fun d hd => isBare_of_isDecimal (hds d hd)]
    show foldl _ (foldl _ q (renumber k l a text)) rest = _
    rw [renumber_eq, foldl_step_token q hk fun d => isBare_of_mem_natDigits]
  | case4 c s _ _ ih => exact ih _

theorem closeQuote_renumbered : closeQuote (renumbered k l s) = none ↔ closeQuote s = none := by
  rw [← Option.not_isSome_iff_eq_none, closeQuote_isSome, foldl_step_renumbered,
    ← closeQuote_isSome, Option.not_isSome_iff_eq_none]

/-! ## Tokens -/

theorem sameLead_renumbered (k l : Nat) (s : List Char) :
    SameLead isSigil s (renumbered k l s) := by
  refine mapReferences_sameLead numberedReader (fun {s t r a} h => ?_) s
  obtain ⟨u, -, rfl, -⟩ := numberedRead_eq_some h
  exact ⟨_, u, _, isSigil_numbered a.1, rfl, rfl⟩

theorem head?_renumbered (s : List Char) : (renumbered k l s).head? = s.head? := by
  have h := sameLead_renumbered k l s
  generalize renumbered k l s = s' at h
  cases h <;> rfl

theorem Token.renumbered (hu : Token u) (s : List Char) :
    renumbered k l (u ++ s) = u ++ Ir.renumbered k l s :=
  hu.mapReferences (fun h => sighted_numberedReader.read_none h _) s

theorem headOf_renumbered : HeadOf s (renumbered k l s) := by
  rintro u r hu rfl
  exact ⟨_, hu.renumbered r, .inl (head?_renumbered r)⟩

theorem renumbered_other (hl : literal? (c :: s) = none) (hr : numberedRead (c :: s) = none) :
    renumbered k l (c :: s) = c :: renumbered k l s := by
  simp [renumbered, mapReferences, lexemes_other numberedReader hl hr, Lexeme.text]

theorem headOf_of_renumbered : HeadOf (renumbered k l s) s := by
  intro u r hu h
  suffices hs : u <+: s by
    obtain ⟨r', rfl⟩ := hs
    rw [hu.renumbered] at h
    exact ⟨r', rfl, .inl (by rw [← append_cancel_left h, head?_renumbered])⟩
  cases hu with
  | bare hu =>
    exact (sameLead_renumbered k l s).symm.startsWith (fun d hd => isBare_isSigil (hu d hd))
      ⟨r, h.symm⟩
  | @quoted b hb =>
    obtain ⟨s, rfl⟩ :=
      head?_eq_some_iff.1 (show s.head? = some '"' by rw [← head?_renumbered, h]; rfl)
    rw [quoted_append] at h
    cases hc : closeQuote s with
    | none =>
      have ho := closeQuote_renumbered (k := k) (l := l).2 hc
      rw [renumbered_other (by rw [literal?_quote, hc]; rfl) rfl] at h
      rw [(cons.inj h).2] at ho
      cases ho.symm.trans (closeQuote_body hb r)
    | some p =>
      obtain ⟨b', r'⟩ := p
      have hb' := isBody_of_closeQuote hc
      obtain rfl := closeQuote_split hc
      rw [← cons_append, ← quoted_append, (Token.quoted hb').renumbered, quoted_append] at h
      obtain ⟨rfl, -⟩ := hb.unique hb' (cons.inj h).2.symm
      exact ⟨r', by simp⟩

theorem literal?_renumbered (h : literal? (c :: s) = none) :
    literal? (c :: renumbered k l s) = none := by
  by_cases hq : c = '"'
  · subst hq
    rw [literal?_quote, Option.map_eq_none_iff] at h ⊢
    exact closeQuote_renumbered.2 h
  · exact literal?_none_of_headOf hq headOf_of_renumbered h

/-! ## Lexemes -/

/-- A lexeme with its number moved. -/
def Lexeme.moved (k l : Nat) : Lexeme (Numbered × Nat) → Lexeme (Numbered × Nat)
  | .reference a _ => .reference (Ir.moved k l a) (a.1.sigil :: natDigits (Ir.moved k l a).2)
  | .literal t => .literal t
  | .other c => .other c

theorem renumbered_literal {t rest : List Char} (h : literal? (c :: s) = some (c :: t, rest)) :
    renumbered k l (c :: s) = c :: (t ++ renumbered k l rest) := by
  simp [renumbered, mapReferences, lexemes_literal numberedReader h, Lexeme.text]

theorem renumbered_reference {a : Numbered × Nat} {t : List Char} (hl : literal? (c :: s) = none)
    (h : numberedReader.read (c :: s) = some (a, t, r)) :
    renumbered k l (c :: s) = a.1.sigil :: (natDigits (moved k l a).2 ++ renumbered k l r) := by
  simp [renumbered, mapReferences, lexemes_reference numberedReader hl h, renumber_eq]

theorem lexemes_renumbered (k l : Nat) (s : List Char) :
    lexemes numberedReader (renumbered k l s) =
      (lexemes numberedReader s).map (Lexeme.moved k l) := by
  fun_induction lexemes numberedReader s with
  | case1 => rw [renumbered, mapReferences_nil, lexemes_nil, map_nil]
  | case2 c s text rest h ih =>
    obtain ⟨t, rfl, ht, -⟩ := literal?_append h
    rw [renumbered_literal h, lexemes_literal _ (ht _), ih]
    rfl
  | case3 c s hl a text rest h ih =>
    obtain ⟨ds, -, -, -, -, -, hw⟩ := numberedRead_eq_some (show numberedRead (c :: s) = _ from h)
    have hread :=
      numberedRead_number a.1 (show natDigits (moved k l a).2 ≠ [] from Nat.toDigits_ne_nil)
      (fun d hd => isDecimal_of_mem_natDigits hd)
      ((show Akin rest (renumbered k l rest)
        from .inl (head?_renumbered rest)).continuesWord_eq.trans hw)
    have hs := isSigil_numbered a.1
    rw [digitsValue_natDigits] at hread
    rw [renumbered_reference hl h,
      lexemes_reference _ (literal?_cons (isSigil_ne_quote hs) (isSigil_ne_c hs)) hread, ih]
    obtain ⟨kind, n⟩ := a
    cases kind <;> rfl
  | case4 c s hl h ih =>
    rw [renumbered_other hl h, lexemes_other _ (literal?_renumbered hl)
      (sighted_numberedReader.read_none_of_headOf headOf_of_renumbered h), ih]
    rfl

theorem renumbered_renumbered (a b c d : Nat) (s : List Char) :
    renumbered c d (renumbered a b s) = renumbered (a + c) (b + d) s := by
  rw [renumbered, mapReferences, lexemes_renumbered, flatMap_map, renumbered, mapReferences]
  refine flatMap_congr fun x _ => ?_
  cases x with
  | literal t => rfl
  | other e => rfl
  | reference n t =>
    obtain ⟨kind, n⟩ := n
    show renumber c d (moved a b (kind, n)) _ = renumber (a + c : Nat) (b + d : Nat) (kind, n) t
    rw [renumber_eq, renumber_eq]
    cases kind <;> simp [moved, add_assoc]

theorem references_renumbered (k l : Nat) (s : List Char) :
    references globalReader (renumbered k l s) = references globalReader s := by
  have hR := sigiled_globalReader.sighted
  fun_induction lexemes numberedReader s with
  | case1 => rw [renumbered, mapReferences_nil]
  | case2 c s text rest h ih =>
    obtain ⟨t, rfl, ht, -⟩ := literal?_append h
    simp only [renumbered_literal h, references, lexemes_literal globalReader (ht _),
      lexemes_literal globalReader h] at ih ⊢
    exact ih
  | case3 c s hl a text rest h ih =>
    obtain ⟨ds, hs, -, -, -, hds, -⟩ := numberedRead_eq_some (show numberedRead (c :: s) = _ from h)
    have hskip {u : List Char} (hu : ∀ d ∈ u, isBare d) (r : List Char) :
        references globalReader (a.1.sigil :: (u ++ r)) = references globalReader r := by
      have hne : a.1.sigil ≠ '@' := by cases a.1 <;> decide
      rw [references_cons _ (isSigil_ne_quote (isSigil_numbered a.1))
        (sigiled_globalReader.read_none hne _), ((Token.bare hu).references hR r).1]
    rw [renumbered_reference hl h, hs, cons_append, hskip fun d => isBare_of_mem_natDigits,
      hskip fun d hd => isBare_of_isDecimal (hds d hd), ih]
  | case4 c s hl h ih =>
    rw [renumbered_other hl h]
    by_cases hq : c = '"'
    · subst hq
      have hrefs {s : List Char} (hl : literal? ('"' :: s) = none) :
          references globalReader ('"' :: s) = references globalReader s := by
        simp [references, lexemes_other globalReader hl rfl]
      rw [hrefs hl, hrefs (literal?_renumbered hl), ih]
    · obtain ⟨ws, h1, h2, -⟩ :=
        hR.references_congr hq (headOf_renumbered (s := s) (k := k) (l := l)) headOf_of_renumbered
      rw [h1, h2, ih]

/-! ## Shifting -/

theorem shiftNumbered_cases (k l : Nat) (text : String) :
    (k = 0 ∧ l = 0 ∧ shiftNumbered k l text = text) ∨
      (¬ (k = 0 ∧ l = 0) ∧ (shiftNumbered k l text).toList = renumbered k l text.toList) := by
  by_cases h : (k : Int) = 0 ∧ (l : Int) = 0
  · exact .inl ⟨by omega, by omega, if_pos h⟩
  · exact .inr ⟨by omega, toList_shiftNumbered h text⟩

/-- A lexeme and the same with its number moved. -/
inductive Shifted (k l : Nat) : Lexeme (Numbered × Nat) → Lexeme (Numbered × Nat) → Prop
  | literal (t : List Char) : Shifted k l (.literal t) (.literal t)
  | other (c : Char) : Shifted k l (.other c) (.other c)
  | number (a : Numbered × Nat) (t t' : List Char) :
    Shifted k l (.reference a t) (.reference (moved k l a) t')

end CallAtlas.Ir
