import CallAtlas.Proofs.Ir.Spellings

/-!
# Renaming symbols in texts

A renamed text refers to the new names where the old ones stood, `renameGlobals_references`,
provided that no reference is followed by a character of bare names, so that a new name cannot run
on, and that each new name is found again in its written form, `read_survivor`.
-/

namespace CallAtlas.Ir

open Text List

variable {α : Type} {ls ls' : List (Lexeme α)} {r s : List Char} {rename : String → Option String}

/-- Whether no reference is followed by a character of bare names. -/
def unextended : List (Lexeme α) → Bool
  | [] => true
  | .reference _ _ :: ls => !(ls.flatMap Lexeme.text).head?.any isBare && unextended ls
  | .literal _ :: ls => unextended ls
  | .other _ :: ls => unextended ls

theorem unextended_suffix (h : ls' <:+ ls) (hls : unextended ls) : unextended ls' := by
  induction ls with
  | nil => rwa [suffix_nil.1 h]
  | cons l ls ih =>
    rcases suffix_cons_iff.1 h with rfl | h
    · exact hls
    · refine ih h ?_
      cases l with
      | reference => exact (Bool.and_eq_true _ _ ▸ hls).2
      | literal => exact hls
      | other => exact hls

theorem startsName_of_any_isBare (h : s.head?.any isBare = false) : startsName s = false := by
  cases s with
  | nil => rfl
  | cons c s => exact (Bool.or_eq_false_iff.1 h).1

theorem spaced_of_unextended (h : unextended ls) : spaced ls := by
  induction ls with
  | nil => rfl
  | cons l ls ih =>
    cases l with
    | reference w t =>
      rw [unextended, Bool.and_eq_true, Bool.not_eq_true'] at h
      rw [spaced, startsName_of_any_isBare h.1, ih h.2]
      rfl
    | literal => exact ih h
    | other => exact ih h

theorem read_survivor (h : survives isDecimal s) : Writable s ∧ ∀ r, r.head?.any isBare = false →
    ∃ w, globalReader.read (writeName ['@'] s ++ r) = some (w, writeName ['@'] s, r) ∧
    w.name = s := by
  have hw' : ∀ c, writeName [c] s = c :: writeName [] s := fun c => writeName_cons c s
  by_cases hw : (isBareName s || isNumberName s) = true
  · have hs :=
      (survives_of_unquoted (fun h => by rw [globalName?, h]; rfl) globalName?_number hw).2 h
    rw [writeName_unquoted hw] at hw'
    refine ⟨⟨s, .bare (globalName?_chars hs), hw'⟩, fun r hr => ⟨.bare s, ?_, rfl⟩⟩
    rw [hw']
    exact read_bare rfl bareForm_globalName? (bareForm_globalName?.swap hs (.inr hr))
  · rw [writeName_quoted hw] at hw'
    refine ⟨⟨_, .quoted (isBody_escape s), hw'⟩,
      fun r _ => ⟨.quoted (escape s), ?_, (survives_quoted hw).1 h⟩⟩
    rw [hw']
    exact read_quoted rfl (isBody_escape s) r

/-- A renamed text refers to the new names, and its literals, its numbers and everything else stay
as they are. -/
theorem renameGlobals_references {text : String} (ht : terminated false text.toList)
    (hs : unextended (lexemes globalReader text.toList))
    (hn : ∀ x y, rename x = some y → globalRefs (quoteName y "@") = [y]) :
    (∀ z, z ∈ globalRefs (renameGlobals rename text) ↔ ∃ x ∈ globalRefs text,
      (rename x).getD x = z) ∧
    Forall₂ (Renewed (renewal rename)) (lexemes globalReader text.toList)
      (lexemes globalReader (renameGlobals rename text).toList) ∧
    references numberedReader (renameGlobals rename text).toList =
      references numberedReader text.toList := by
  have hw {x y : String} (h : rename x = some y) :=
    read_survivor ((globalRefs_quoteName y).1 (hn x y h))
  have hl : Forall₂ (Renewed (renewal rename)) (lexemes globalReader text.toList)
      (lexemes globalReader (renameGlobals rename text).toList) := by
    rw [renameGlobals, toList_renameWith]
    have hf : Replaces globalReader (· = '@') (respell ['@'] rename) :=
      replaces_respell (by decide) sigiled_globalReader.token fun h => (hw h).1
    refine (lexemes_mapReferences sigiled_globalReader (renewal rename) hf ?_ suffix_rfl ⟨ht,
      spaced_of_unextended hs⟩).1
    intro s w t r r' hsuf hr _ hh
    have hu := unextended_suffix hsuf hs
    rw [unextended, text_lexemes, Bool.and_eq_true, Bool.not_eq_true', ← hh] at hu
    unfold respell renewal
    cases hx : rename (String.ofList w.name) with
    | none =>
      exact ⟨w, sigiled_globalReader.swap hr (.inl hh), by
        rw [Option.getD_none, String.toList_ofList]⟩
    | some y => exact (hw hx).2 r' hu.1
  refine ⟨fun z => by simp [globalRefs_eq, refNames_renewed hl], hl, ?_⟩
  refine ((renameGlobals_edit (fun h => (hw h).1) ht).references sighted_numberedReader
    fun c hc s => ?_).1
  obtain rfl : c = '@' := by simpa using hc
  rfl

/-- A bare name becomes a number, and the literal that spells it stays. -/
theorem renameGlobals_spares_literal :
    "1" ∈ globalRefs
      (renameGlobals (fun x => if x = "f" then some "1" else none)
      "call @f(@g, c\"@f\"), !dbg !2") := by
  refine ((renameGlobals_references (by decide +kernel) (by decide +kernel) fun x y h =>
    ?_).1 "1").2
    ⟨"f", by decide +kernel, rfl⟩
  split_ifs at h
  obtain rfl := Option.some.inj h
  decide +kernel

end CallAtlas.Ir
