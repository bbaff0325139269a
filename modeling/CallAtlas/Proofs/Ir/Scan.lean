import CallAtlas.Ir.Lexeme
import Mathlib

/-!
# Equations of the scanner

What a text with one more character at its head has for references, and what it becomes when they
are replaced. Whether a `c` belongs to the literal behind it makes no difference to either, so the
equations for a character (`references_cons`, `mapReferences_cons`), for a literal
(`references_quote`, `mapReferences_quote`) and for a reference (`references_read`,
`mapReferences_read`) cover every text.
-/

namespace CallAtlas.Ir

/-! ## Literals -/

theorem literal?_cons {c : Char} {s : List Char} (hq : c ≠ '"') (hc : c ≠ 'c') :
    literal? (c :: s) = none := by
  unfold literal?
  split
  · next h => exact absurd (List.cons.inj h).1 hc
  · unfold quoted?
    split
    · next h => exact absurd (List.cons.inj h).1 hq
    · rfl

theorem literal?_quote (s : List Char) :
    literal? ('"' :: s) = (closeQuote s).map fun p => ('"' :: p.1 ++ ['"'], p.2) := rfl

/-- Only a `c` before a quote makes a literal that starts with no quote, and the literal ends at the
same place without it. -/
theorem literal?_tail {c : Char} {s : List Char} {p : List Char × List Char} (hq : c ≠ '"')
    (h : literal? (c :: s) = some p) :
    ∃ s' t, s = '"' :: s' ∧ p.1 = c :: t ∧ literal? ('"' :: s') = some (t, p.2) := by
  have hc : c = 'c' := by
    by_contra hc
    rw [literal?_cons hq hc] at h
    cases h
  subst hc
  obtain ⟨⟨t, rest⟩, hp, rfl⟩ := Option.map_eq_some_iff.1 h
  cases s with
  | nil => simp [quoted?] at hp
  | cons d s =>
    by_cases hd : d = '"'
    · subst hd
      exact ⟨s, t, rfl, rfl, hp⟩
    · simp [quoted?, hd] at hp

section reader

variable {α : Type} (R : Reader α) (f : α → List Char → List Char)

variable {a : α} {c : Char} {rest s text : List Char}

@[simp] theorem lexemes_nil : lexemes R [] = [] := by
  rw [lexemes]

theorem lexemes_literal (h : literal? (c :: s) = some (text, rest)) :
    lexemes R (c :: s) = .literal text :: lexemes R rest := by
  rw [lexemes]
  split
  · next t r h' =>
    rw [h] at h'
    obtain ⟨rfl, rfl⟩ := Prod.mk.inj (Option.some.inj h')
    rfl
  · next h' => rw [h] at h'; cases h'

theorem lexemes_reference (hl : literal? (c :: s) = none)
    (h : R.read (c :: s) = some (a, text, rest)) :
    lexemes R (c :: s) = .reference a text :: lexemes R rest := by
  rw [lexemes]
  split
  · next h' => rw [hl] at h'; cases h'
  · split
    · next b t r h' =>
      rw [h] at h'
      obtain ⟨rfl, hp⟩ := Prod.mk.inj (Option.some.inj h')
      obtain ⟨rfl, rfl⟩ := Prod.mk.inj hp
      rfl
    · next h' => rw [h] at h'; cases h'

theorem lexemes_other (hl : literal? (c :: s) = none)
    (h : R.read (c :: s) = none) : lexemes R (c :: s) = .other c :: lexemes R s := by
  rw [lexemes]
  split
  · next h' => rw [hl] at h'; cases h'
  · split
    · next h' => rw [h] at h'; cases h'
    · rfl

/-! ## References -/

@[simp] theorem references_nil : references R [] = [] := by
  simp [references]

@[simp] theorem mapReferences_nil : mapReferences R f [] = [] := by
  simp [mapReferences]

theorem references_quote {body : List Char} (h : closeQuote s = some (body, rest)) :
    references R ('"' :: s) = references R rest := by
  have hl : literal? ('"' :: s) = some ('"' :: body ++ ['"'], rest) := by
    rw [literal?_quote, h]; rfl
  simp [references, lexemes_literal R hl]

theorem mapReferences_quote {body : List Char} (h : closeQuote s = some (body, rest)) :
    mapReferences R f ('"' :: s) = '"' :: body ++ '"' :: mapReferences R f rest := by
  have hl : literal? ('"' :: s) = some ('"' :: body ++ ['"'], rest) := by
    rw [literal?_quote, h]; rfl
  simp [mapReferences, lexemes_literal R hl, Lexeme.text]

theorem references_cons (hq : c ≠ '"') (h : R.read (c :: s) = none) :
    references R (c :: s) = references R s := by
  cases hl : literal? (c :: s) with
  | none => simp [references, lexemes_other R hl h]
  | some p =>
    obtain ⟨s, t, rfl, hp, hl'⟩ := literal?_tail hq hl
    simp [references, lexemes_literal R hl, lexemes_literal R hl']

theorem mapReferences_cons (hq : c ≠ '"') (h : R.read (c :: s) = none) :
    mapReferences R f (c :: s) = c :: mapReferences R f s := by
  cases hl : literal? (c :: s) with
  | none => simp [mapReferences, lexemes_other R hl h, Lexeme.text]
  | some p =>
    obtain ⟨s, t, rfl, hp, hl'⟩ := literal?_tail hq hl
    simp [mapReferences, lexemes_literal R hl, lexemes_literal R hl', Lexeme.text, hp]

theorem references_read (hq : c ≠ '"') (hc : c ≠ 'c')
    (h : R.read (c :: s) = some (a, text, rest)) :
    references R (c :: s) = a :: references R rest := by
  simp [references, lexemes_reference R (literal?_cons hq hc) h]

theorem mapReferences_read (hq : c ≠ '"') (hc : c ≠ 'c')
    (h : R.read (c :: s) = some (a, text, rest)) :
    mapReferences R f (c :: s) = f a text ++ mapReferences R f rest := by
  simp [mapReferences, lexemes_reference R (literal?_cons hq hc) h]

theorem mapReferences_id (hf : ∀ a t, f a t = t) (s : List Char) : mapReferences R f s = s := by
  conv_rhs => rw [← text_lexemes R s]
  refine List.flatMap_congr fun l _ => ?_
  cases l with
  | reference a t => exact hf a t
  | literal t => rfl
  | other c => rfl

end reader

theorem renameWith_none (R : Reader Spelling) (sigil : String) {rename : String → Option String}
    (h : ∀ x, rename x = none) (text : String) : renameWith R sigil rename text = text := by
  unfold renameWith
  rw [mapReferences_id, String.ofList_toList]
  intro w t
  rw [h]

end CallAtlas.Ir
