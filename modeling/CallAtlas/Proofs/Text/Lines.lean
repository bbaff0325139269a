import CallAtlas.Text.Lines
import Mathlib.Data.List.TakeWhile

/-!
# Writing and reading lines

Lines without breaks that are written one after the other, each with a line feed behind it, are read
back: `lines_unlines`. The lines that are read from a text hold no break, `breakless_of_mem_lines`.
-/

namespace CallAtlas.Text

open List

variable {s l : List Char} {ls ls' : List (List Char)}

/-- A text that holds no line break. -/
def Breakless (l : List Char) : Prop := ∀ c ∈ l, Text.isBreak c = false

instance (l : List Char) : Decidable (Breakless l) := List.decidableBAll (Text.isBreak · = false) l

/-- The lines one after the other, each with a line feed behind it. -/
def unlines (ls : List (List Char)) : List Char := ls.flatMap (· ++ ['\n'])

@[simp] theorem unlines_nil : unlines [] = [] := rfl

@[simp] theorem unlines_cons (l : List Char) (ls : List (List Char)) :
    unlines (l :: ls) = l ++ '\n' :: unlines ls := by
  simp [unlines]

@[simp] theorem unlines_append (ls ls' : List (List Char)) :
    unlines (ls ++ ls') = unlines ls ++ unlines ls' := by
  simp [unlines]

theorem lines_of_ne_nil (h : s ≠ []) :
    lines s = s.takeWhile (!Text.isBreak ·) ::
    lines (dropBreak (s.dropWhile (!Text.isBreak ·))) := by
  cases s with
  | nil => exact absurd rfl h
  | cons c r => rw [lines]

theorem lines_cons_break (h : Breakless l) (r : List Char) :
    lines (l ++ '\n' :: r) = l :: lines r := by
  have hl : ∀ c ∈ l, (!isBreak c) := fun c hc => by rw [h c hc]; rfl
  rw [lines_of_ne_nil (by simp), takeWhile_append_of_pos hl, takeWhile_cons_of_neg (by decide),
    append_nil, dropWhile_append_of_pos hl]
  rfl

theorem lines_unlines (h : ∀ l ∈ ls, Breakless l) : lines (unlines ls) = ls := by
  induction ls with
  | nil => rw [unlines_nil, lines]
  | cons l ls ih =>
    obtain ⟨hl, hls⟩ := forall_mem_cons.1 h
    rw [unlines_cons, lines_cons_break hl, ih hls]

theorem breakless_of_mem_lines (h : l ∈ lines s) : Breakless l := by
  induction s using lines.induct with
  | case1 =>
    rw [lines] at h
    cases h
  | case2 c r ih =>
    rw [lines] at h
    rcases mem_cons.1 h with rfl | h
    · intro d hd
      simpa using mem_takeWhile_imp hd
    · exact ih h

theorem Breakless.sublist (h : Breakless s) (hl : l.Sublist s) : Breakless l :=
  fun c hc => h c (hl.subset hc)

theorem breakless_nil : Breakless [] := fun _ hc => absurd hc not_mem_nil

theorem breakless_cons {c : Char} : Breakless (c :: l) ↔ Text.isBreak c = false ∧ Breakless l :=
  forall_mem_cons

theorem breakless_append {l' : List Char} : Breakless (l ++ l') ↔ Breakless l ∧ Breakless l' :=
  forall_mem_append

end CallAtlas.Text
