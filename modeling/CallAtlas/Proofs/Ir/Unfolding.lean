import CallAtlas.Proofs.Ir.References
import CallAtlas.Proofs.Table

/-!
# Unfolding named types

The `unfolding` of a named type is its body with every name replaced by the unfolding of its own
body, down to a depth. Two bodies that differ by the names in them unfold alike if these names do,
`spread_renewed`, and for one body this is all there is to it, `spread_eq_iff`. A table of types is
`Grounded` if its bodies are well-formed and mention types of the table only; there an unfolding
does not depend on what is added to the table, `unfolding_extend`.
-/

namespace CallAtlas.Ir

open List

variable {rename : String → Option String} {ls ls' : List (Lexeme Spelling)}

/-! ## Unfoldings -/

/-- The unfolding of a type, written as a chain of pieces. -/
inductive Unfolding where
  /-- What lies below the depth. -/
  | cut
  /-- A name without a body. -/
  | unknown
  /-- The end of a body. -/
  | done
  /-- A piece of text and the rest of the body. -/
  | text (t : List Char) (rest : Unfolding)
  /-- A type in the place of its name and the rest of the body. -/
  | type (inner rest : Unfolding)
  deriving DecidableEq, Repr

/-- The body with every name replaced. -/
def spread (u : String → Unfolding) : List (Lexeme Spelling) → Unfolding
  | [] => .done
  | .reference w _ :: ls => .type (u (String.ofList w.name)) (spread u ls)
  | .literal t :: ls => .text t (spread u ls)
  | .other c :: ls => .text [c] (spread u ls)

/-- The unfolding of a type in a table, down to a depth. -/
def unfolding (types : Table String String) : Nat → String → Unfolding
  | 0, _ => .cut
  | n + 1, x =>
    match types.get? x with
    | none => .unknown
    | some body => spread (unfolding types n) (lexemes typeReader body.toList)

theorem unfolding_succ {types : Table String String} {x body : String}
    (h : types.get? x = some body) (n : Nat) :
    unfolding types (n + 1) x = spread (unfolding types n) (lexemes typeReader body.toList) := by
  rw [unfolding, h]

theorem spread_eq_iff {u v : String → Unfolding} (body : String) :
    spread u (lexemes typeReader body.toList) = spread v (lexemes typeReader body.toList) ↔
      ∀ x ∈ refNames typeReader body, u x = v x := by
  unfold refNames references
  generalize lexemes typeReader body.toList = ls
  induction ls with
  | nil => simp [spread]
  | cons l ls ih =>
    cases l with
    | literal t => simpa [spread] using ih
    | other c => simpa [spread] using ih
    | reference w t => simp [spread, ih]

theorem spread_renewed (h : List.Forall₂ (Renewed (renewal rename)) ls ls')
    (u : String → Unfolding) :
    spread u ls' = spread (fun x => u ((rename x).getD x)) ls := by
  induction h with
  | nil => rfl
  | cons h _ ih =>
    cases h with
    | literal t => rw [spread, spread, ih]
    | other c => rw [spread, spread, ih]
    | reference h => rw [spread, spread, ih, h, renewal, String.ofList_toList]

/-! ## Bodies -/

/-- Whether a lexeme is a sigil that announces no type. -/
def isStray : Lexeme Spelling → Bool
  | .other c => isSigil c
  | _ => false

/-- The body of a type: its quotes are closed, no name runs on into a further name character, and
outside literals no sigil stands but that of a type. -/
structure BodyForm (body : String) : Prop where
  tidy : Tidy typeReader body.toList
  plain : ∀ l ∈ lexemes typeReader body.toList, isStray l = false

instance (body : String) : Decidable (BodyForm body) :=
  decidable_of_iff (Tidy typeReader body.toList ∧
    (lexemes typeReader body.toList).all (! isStray ·))
    ⟨fun h => ⟨h.1, by simpa using h.2⟩, fun h => ⟨h.tidy, by simpa using h.plain⟩⟩

section foreign

variable {α : Type} {R : Reader α} {f : α → List Char → List Char}

theorem mapReferences_foreign (hR : ∀ {c s}, isSigil c = false ∨ c = '%' → R.read (c :: s) = none)
    {s : List Char}
    (ht : Tidy typeReader s) (hp : ∀ l ∈ lexemes typeReader s, isStray l = false) :
    mapReferences R f s = s := by
  fun_induction lexemes typeReader s with
  | case1 => exact mapReferences_nil R f
  | case2 c s text rest h ih =>
    have ih := ih ((tidy_literal h).1 ht) fun l hl => hp l (mem_cons_of_mem _ hl)
    rw [mapReferences, lexemes_literal R h, flatMap_cons]
    show text ++ mapReferences R f rest = c :: s
    rw [ih, (literal?_split h).1]
  | case3 c s hl w t r hr ih =>
    obtain ⟨u, rfl, hu⟩ := sigiled_typeReader.token hr
    have hsplit := (typeReader.split hr).1
    rw [cons_append] at hsplit
    obtain ⟨rfl, rfl⟩ := cons.inj hsplit
    have ih := ih ((tidy_read (by decide) hu hr).1 ht).2 fun l hl => hp l (mem_cons_of_mem _ hl)
    rw [mapReferences_cons R f (by decide) (hR (.inr rfl)),
      hu.mapReferences (fun h => hR (.inl h)), ih]
  | case4 c s hl hr ih =>
    have hq : c ≠ '"' := by
      rintro rfl
      obtain ⟨b, r, hb, rfl, -⟩ := terminated_quote.1 ht.terminated
      rw [literal?_quote, closeQuote_body hb] at hl
      cases hl
    have hc : isSigil c = false := hp _ mem_cons_self
    have ih := ih ((tidy_cons hq hr).1 ht) fun l hl => hp l (mem_cons_of_mem _ hl)
    rw [mapReferences_cons R f hq (hR (.inl hc)), ih]

end foreign

theorem numberedRead_none {c : Char} {s : List Char} (h : isSigil c = false ∨ c = '%') :
    numberedReader.read (c :: s) = none := by
  have hc : Numbered.ofSigil? c = none := by
    rcases h with h | rfl
    · unfold Numbered.ofSigil?
      split_ifs with h1 h2
      · subst h1
        cases h
      · subst h2
        cases h
      · rfl
    · rfl
  show numberedRead (c :: s) = none
  simp only [numberedRead, hc]

theorem globalRead_none {c : Char} {s : List Char} (h : isSigil c = false ∨ c = '%') :
    globalReader.read (c :: s) = none := by
  refine sigiled_globalReader.read_none ?_ s
  rintro rfl
  rcases h with h | h <;> cases h

namespace BodyForm

variable {body : String}

theorem shiftNumbered_eq (h : BodyForm body) (a b : Int) : shiftNumbered a b body = body := by
  unfold shiftNumbered
  split_ifs
  · rfl
  · rw [mapReferences_foreign numberedRead_none h.tidy h.plain, String.ofList_toList]

theorem renameGlobals_eq (h : BodyForm body) (rename : String → Option String) :
    renameGlobals rename body = body := by
  unfold renameGlobals renameWith
  rw [mapReferences_foreign globalRead_none h.tidy h.plain, String.ofList_toList]

end BodyForm

/-- A text that mentions nothing with a new name stays as it is. -/
theorem renameWith_absent {R : Reader Spelling} {mark text : String}
    (h : ∀ x ∈ refNames R text, rename x = none) : renameWith R mark rename text = text := by
  have hm : mapReferences R (respell mark.toList rename) text.toList = text.toList := by
    refine Eq.trans (flatMap_congr fun l hl => ?_) (text_lexemes R text.toList)
    cases l with
    | literal t => rfl
    | other c => rfl
    | reference w t =>
      have hw : rename (String.ofList w.name) = none :=
        h _ (mem_map.2 ⟨w, mem_filterMap.2 ⟨_, hl, rfl⟩, rfl⟩)
      simp only [respell, hw]
      rfl
  rw [← toList_renameWith] at hm
  exact String.toList_injective hm

theorem stray_renewed {new : List Char → List Char}
    (h : List.Forall₂ (Renewed new) ls ls') (hs : ∀ l ∈ ls, isStray l = false) :
    ∀ l ∈ ls', isStray l = false := by
  induction h with
  | nil => exact hs
  | cons h _ ih =>
    obtain ⟨h1, h2⟩ := forall_mem_cons.1 hs
    refine forall_mem_cons.2 ⟨?_, ih h2⟩
    cases h with
    | literal t => rfl
    | other c => exact h1
    | reference _ => rfl

/-- New names that read back, in the place of the names of types. -/
structure TypeNames (rename : String → Option String) : Prop where
  reads : ∀ {x y}, rename x = some y → Writable y.toList ∧ ReadsBack typeReader '%' y.toList

namespace TypeNames

variable {rename : String → Option String} {body : String}

theorem refNames_eq (h : TypeNames rename) (hb : BodyForm body) :
    refNames typeReader (renameTypes rename body) = (refNames typeReader body).map fun x =>
  (rename x).getD x :=
  (renameWith_refNames sigiled_typeReader rfl h.reads hb.tidy).1

theorem spread_eq (h : TypeNames rename) (hb : BodyForm body) (u : String → Unfolding) :
    spread u (lexemes typeReader (renameTypes rename body).toList) =
      spread (fun x => u ((rename x).getD x)) (lexemes typeReader body.toList) :=
  spread_renewed (lexemes_renameWith sigiled_typeReader rfl h.reads hb.tidy).1 u

theorem bodyForm (h : TypeNames rename) (hb : BodyForm body) :
    BodyForm (renameTypes rename body) := by
  obtain ⟨hl, ht⟩ :=
    lexemes_renameWith sigiled_typeReader (show "%".toList = _ from rfl) h.reads hb.tidy
  exact ⟨ht, stray_renewed hl hb.plain⟩

end TypeNames

/-! ## Tables of types -/

/-- The bodies of the table are well-formed and mention types of the table only. -/
structure Grounded (types : Table String String) : Prop where
  body : ∀ {x b}, types.get? x = some b → BodyForm b
  closed : ∀ {x b}, types.get? x = some b → ∀ y ∈ refNames typeReader b, y ∈ types.keys

theorem unfolding_extend {types types' : Table String String} (h : Grounded types)
    (he : ∀ {x b}, types.get? x = some b → types'.get? x = some b) (n : Nat) {x : String}
    (hx : x ∈ types.keys) :
    unfolding types' n x = unfolding types n x := by
  induction n generalizing x with
  | zero => rfl
  | succ n ih =>
    obtain ⟨b, hb⟩ := Table.exists_get? hx
    rw [unfolding_succ hb, unfolding_succ (he hb), spread_eq_iff]
    intro y hy
    exact ih (h.closed hb y hy)

end CallAtlas.Ir
