import CallAtlas.Ir.Metadata
import CallAtlas.Proofs.Link.Parts

/-!
# Fields that are joined

Splitting inverts joining, `fields_join`, for fields behind each of which the scan is outside
strings, `endsInString`, at depth zero. The fields of a metadata record and the elements of an array
are read in this way.
-/

namespace CallAtlas.Link

open Ir Text List

/-- Whether one is inside a string behind a text. `inString` says whether the text starts inside
one. -/
def endsInString : Bool → List Char → Bool
  | inString, [] => inString
  | true, '\\' :: _ :: r => endsInString true r
  | true, c :: r => endsInString (c ≠ '"') r
  | false, c :: r => endsInString (c = '"') r

theorem apart_of_endsInString {s : List Char} {inString : Bool}
    (h : endsInString inString s = false) :
    Apart inString s false := by
  fun_induction endsInString inString s with
  | case1 =>
    subst h
    exact .nil false
  | case2 c r ih => exact (apart_escape c).append_iff.2 (ih h)
  | case3 c r hn ih =>
    have hc : c ≠ '\\' := by
      rintro rfl
      cases r with
      | nil => cases h
      | cons d r => exact hn d r rfl rfl
    exact (apart_inside hc).append_iff.2 (ih h)
  | case4 c r ih =>
    by_cases hc : c = '"'
    · subst hc
      exact apart_quote.append_iff.2 (ih h)
    · rw [decide_eq_false hc] at ih h
      exact (apart_char hc).append_iff.2 (ih h)

/-- Fields that are filled, end outside strings at depth zero and hold no comma of depth zero
outside strings are read back, trimmed, from the text with commas between them: where they stand
alone, in a record and in an array. -/
theorem fields_join {es : List (List Char)}
    (h : ∀ e ∈ es, trim e ≠ [] ∧ endsInString false e = false ∧ through 0 (mark false e) = some 0) :
    fields ([',', ' '].intercalate es) = es.map trim ∧
      (∀ (n : MetadataNode) kind,
        recordHead? n.text.toList = some (kind, [',', ' '].intercalate es ++ [')']) →
        n.fields = Table.ofList ((es.map trim).filterMap fun item =>
          (keyValue? item).map fun p => (String.ofList p.1, String.ofList p.2))) ∧
      ∀ s a head type gap, Parts s a head type gap ([',', ' '].intercalate es) →
      a.elements = es.map trim := by
  have hf :=
    fields_intercalate fun e he => ⟨(h e he).1, apart_of_endsInString (h e he).2.1, (h e he).2.2⟩
  refine ⟨hf, fun n kind hn => ?_, fun s a head type gap hp => hp.elements.trans hf⟩
  have hb (s : List Char) : beforeLastParen (s ++ [')']) = s := by simp [beforeLastParen]
  simp only [MetadataNode.fields, hn, hb, hf]

/-- Two fields with a comma in a string, commas between brackets and blanks around. -/
theorem fields_join_nested : fields " !\"a,b\"  , [2 x i8] f(1, \x7b2\x7d) ".toList =
    ["!\"a,b\"".toList, "[2 x i8] f(1, \x7b2\x7d)".toList] :=
  (@fields_join [" !\"a,b\"  ".toList, "[2 x i8] f(1, \x7b2\x7d) ".toList] (by decide)).1

end CallAtlas.Link
