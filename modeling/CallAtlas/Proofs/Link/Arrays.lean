import CallAtlas.Link.Appending
import CallAtlas.Proofs.Ir.Keywords

/-!
# Concatenated arrays

The concatenation of two arrays starts as the first of them, up to the bracket of its type:
`joinArrays_before`. Its linkage is therefore that of the first, `linkage_joinArrays`, and so is
what it is if the kind word stands before the bracket, `kindSteady_joinArrays`.
-/

namespace CallAtlas.Link

open Ir Text

variable {a : Global} {name second text : String} {first : String}

theorem arrayHead?_bracket {s inner : List Char} {count : Nat}
    (h : arrayHead? s = some (count, inner)) :
    ∃ t, s = '[' :: t := by
  unfold arrayHead? at h
  split at h
  · next t => exact ⟨t, rfl⟩
  · cases h

theorem findArray?_eq_some {b s before type inner : List Char} {count : Nat}
    (h : findArray? b s = some (before, count, type, inner)) :
    ∃ pre, before = b.reverse ++ pre ∧ s = pre ++ type ∧ arrayHead? type = some (count, inner) ∧
      ∀ u t, pre = u ++ t → t ≠ [] → arrayHead? (t ++ type) = none := by
  induction s generalizing b with
  | nil => cases h
  | cons c r ih =>
    unfold findArray? at h
    cases ha : arrayHead? (c :: r) with
    | some p =>
      simp only [ha] at h
      obtain ⟨rfl, rfl, rfl, rfl⟩ := h
      refine ⟨[], by simp, rfl, ha, fun u t hut ht => ?_⟩
      exact absurd (List.append_eq_nil_iff.1 hut.symm).2 ht
    | none =>
      rw [ha] at h
      obtain ⟨pre, rfl, rfl, ht, hn⟩ := ih h
      refine ⟨c :: pre, by simp, rfl, ht, fun u t hut htn => ?_⟩
      cases u with
      | nil =>
        rw [List.nil_append] at hut
        rw [← hut]
        exact ha
      | cons d u => exact hn u t (List.cons.inj hut).2 htn

theorem splitArray_before {segment : List Char} {a : ArrayText}
    (h : splitArray segment name = .ok a) : ∃ t, segment = a.before ++ '[' :: t := by
  unfold splitArray at h
  cases hf : findArray? [] segment with
  | none => rw [hf] at h; cases h
  | some p =>
    obtain ⟨before, count, type, inner⟩ := p
    obtain ⟨pre, hb, hs, ht, -⟩ := findArray?_eq_some hf
    obtain ⟨t, rfl⟩ := arrayHead?_bracket ht
    simp only [hf] at h
    split at h
    · cases h
    · split at h
      · cases h
      · obtain rfl := Except.ok.inj h
        refine ⟨t, ?_⟩
        rw [hs, hb]
        rfl

theorem render_eq (a : ArrayText) :
    a.render = a.before ++ '[' ::
      (natDigits a.count ++ (" x ".toList ++ (a.elementType ++ ("] [".toList ++
      ([',', ' '].intercalate a.elements ++ ']' :: a.behind))))) := by
  simp only [ArrayText.render, List.append_assoc, List.cons_append]

theorem joinArrays_ok (h : joinArrays first second name = .ok text) :
    ∃ a b, splitArray first.toList name = .ok a ∧ splitArray second.toList name = .ok b ∧
      text.toList = (a.append b).render := by
  unfold joinArrays at h
  cases ha : splitArray first.toList name with
  | error e => rw [ha] at h; cases h
  | ok a =>
    cases hb : splitArray second.toList name with
    | error e => rw [ha, hb] at h; cases h
    | ok b =>
      rw [ha, hb] at h
      obtain rfl := Except.ok.inj h
      exact ⟨a, b, rfl, rfl, String.toList_ofList⟩

theorem joinArrays_before (h : joinArrays first second name = .ok text) :
    ∃ before t t', first.toList = before ++ '[' :: t ∧ text.toList = before ++ '[' :: t' := by
  obtain ⟨a, b, ha, -, htext⟩ := joinArrays_ok h
  obtain ⟨t, ht⟩ := splitArray_before ha
  exact ⟨a.before, t, _, ht, by rw [htext, render_eq]; rfl⟩

theorem marks_bracket : Marks fun c => isSigil c || c = '[' := by
  refine marks_of_letters ?_ (by decide)
  intro c hc
  rcases Bool.or_eq_true _ _ ▸ hc with h | h
  · exact marks_isSigil.blank c h
  · obtain rfl : c = '[' := by simpa using h
    decide

theorem kindUnmarked_bracket : Global.KindUnmarked fun c => isSigil c || c = '[' := by
  unfold Global.KindUnmarked
  decide

theorem joinArrays_sameLead (h : joinArrays first second name = .ok text) :
    SameLead (fun c => isSigil c || c = '[') first.toList text.toList := by
  obtain ⟨before, t, t', h1, h2⟩ := joinArrays_before h
  rw [h1, h2]
  exact .append_left before (.mark rfl)

theorem linkage_joinArrays
    (h : joinArrays a.segment second name = .ok text) :
    ({ a with segment := text } : Global).linkage = a.linkage := by
  unfold Global.linkage
  rw [(splitKeywords_sameLead marks_bracket (joinArrays_sameLead h)).1]

/-! ## What a global value is -/

/-- Whether no join changes what a global value is: no reference stands before its kind word, and in
an array that is joined with its namesakes no bracket either. -/
def kindSteady (a : Global) : Bool :=
  a.kindFirst && (a.linkage ≠ .appending || a.kindBefore fun c => isSigil c || c = '[')

theorem kindSteady_iff : kindSteady a ↔ a.kindFirst ∧
    (a.linkage = .appending → a.kindBefore (fun c => isSigil c || c = '[') = true) := by
  unfold kindSteady
  rw [Bool.and_eq_true, Bool.or_eq_true, decide_eq_true_eq, ← imp_iff_not_or]

theorem kindSteady_mapText {t : String → String} (ht : KeepsLead t) (h : kindSteady a) :
    kindSteady (a.mapText t) := by
  obtain ⟨hf, hb⟩ := kindSteady_iff.1 h
  refine kindSteady_iff.2 ⟨Global.kindFirst_mapText ht hf, fun hl => ?_⟩
  rw [Global.linkage_mapText ht] at hl
  rw [Global.kindBefore, Global.leadWords_mapText ht hf]
  exact hb hl

theorem kindSteady_joinArrays (hl : a.linkage = .appending)
    (hk : kindSteady a) (h : joinArrays a.segment second name = .ok text) :
    kindSteady { a with segment := text } = true ∧
      ({ a with segment := text } : Global).isDeclaration = a.isDeclaration := by
  obtain ⟨hf, hb⟩ := kindSteady_iff.1 hk
  have hs : SameLead _ a.segment.toList ({ a with segment := text } : Global).segment.toList :=
    joinArrays_sameLead h
  obtain ⟨hw, hd⟩ := Global.kind_sameLead marks_bracket kindUnmarked_bracket hs (hb hl)
  refine ⟨kindSteady_iff.2 ⟨?_, fun _ => ?_⟩, hd⟩
  · rw [Global.kindFirst_eq, Global.kindBefore, hw]
    exact hf
  · rw [Global.kindBefore, hw]
    exact hb hl

end CallAtlas.Link
