import CallAtlas.Ir.Name
import CallAtlas.Text.Lines
import CallAtlas.Text.Word
import Mathlib

/-!
# Classes of characters

The classes are tables of ranges. Whether two of them have no character in common, `not_inRanges`,
or one lies in the other, `inRanges_of_covered`, is decided by the tables.
-/

namespace CallAtlas.Text

open List

variable {c : Char} {qs rs ss : List (Nat × Nat)}

theorem inRanges_iff : inRanges rs c ↔ ∃ r ∈ rs, r.1 ≤ c.toNat ∧ c.toNat ≤ r.2 := by simp [inRanges]

theorem inRanges_append : inRanges (rs ++ ss) c ↔ inRanges rs c ∨ inRanges ss c := by
  simp [inRanges]

theorem not_inRanges (ht : rs.all fun r => ss.all fun s => s.2 < r.1 || r.2 < s.1)
    (h : inRanges rs c) :
    inRanges ss c = false := by
  refine Bool.eq_false_iff.2 fun hs => ?_
  obtain ⟨r, hr, hrc⟩ := inRanges_iff.1 h
  obtain ⟨s, hs, hsc⟩ := inRanges_iff.1 hs
  have := all_eq_true.1 (all_eq_true.1 ht r hr) s hs
  simp only [Bool.or_eq_true, decide_eq_true_eq] at this
  omega

/-- Whether each range lies in one of another table, where both tables are in order. -/
def covered : List (Nat × Nat) → List (Nat × Nat) → Bool
  | rs, [] => rs.isEmpty
  | rs, s :: ss =>
    (rs.takeWhile (·.2 ≤ s.2)).all (s.1 ≤ ·.1) && covered (rs.dropWhile (·.2 ≤ s.2)) ss

theorem inRanges_of_covered (ht : covered rs ss) (h : inRanges rs c) : inRanges ss c := by
  induction ss generalizing rs with
  | nil =>
    rw [isEmpty_iff.1 ht] at h
    cases h
  | cons s ss ih =>
    rw [covered, Bool.and_eq_true] at ht
    rw [← takeWhile_append_dropWhile (p := (·.2 ≤ s.2)) (l := rs), inRanges_append] at h
    rcases h with h | h
    · obtain ⟨r, hr, hrc⟩ := inRanges_iff.1 h
      have hup : r.2 ≤ s.2 := by simpa using mem_takeWhile_imp hr
      have hdown : s.1 ≤ r.1 := by simpa using all_eq_true.1 ht.1 r hr
      exact inRanges_iff.2 ⟨s, mem_cons_self, by omega⟩
    · obtain ⟨t, hm, htc⟩ := inRanges_iff.1 (ih ht.2 h)
      exact inRanges_iff.2 ⟨t, mem_cons_of_mem s hm, htc⟩

theorem inRanges_of_append (hr : covered rs qs) (hs : covered ss qs) (h : inRanges (rs ++ ss) c) :
    inRanges qs c :=
  (inRanges_append.1 h).elim (inRanges_of_covered hr) (inRanges_of_covered hs)

/-- A class that is given apart for ASCII. -/
theorem ite_inRanges (hr : rs.all (·.2 < 0x80)) (hs : ss.all (0x80 ≤ ·.1)) :
    (if c.toNat < 0x80 then inRanges rs c else inRanges ss c) = inRanges (rs ++ ss) c := by
  have hlow (h : inRanges rs c) : c.toNat < 0x80 := by
    obtain ⟨r, hm, hrc⟩ := inRanges_iff.1 h
    exact hrc.2.trans_lt (of_decide_eq_true (all_eq_true.1 hr r hm))
  have hhigh (h : inRanges ss c) : 0x80 ≤ c.toNat := by
    obtain ⟨s, hm, hsc⟩ := inRanges_iff.1 h
    exact (of_decide_eq_true (all_eq_true.1 hs s hm)).trans hsc.1
  rw [Bool.eq_iff_iff, inRanges_append]
  split_ifs with hc
  · exact ⟨.inl, fun h => h.resolve_right fun h => (hhigh h).not_gt hc⟩
  · exact ⟨.inr, fun h => h.resolve_left fun h => hc (hlow h)⟩

def wordClass : List (Nat × Nat) :=
  [(0x30, 0x39), (0x41, 0x5A), (0x5F, 0x5F), (0x61, 0x7A)] ++ wordRanges

theorem isWord_eq (c : Char) : isWord c = inRanges wordClass c := by
  rw [wordClass, ← ite_inRanges (by decide) (by decide +kernel), isWord]
  congr 1
  rw [Bool.eq_iff_iff]
  simp [isAsciiLetter, inRanges, Char.le_def, ← Char.toNat_inj, UInt32.le_iff_toNat_le]
  omega

theorem isPrintable_eq (c : Char) :
    isPrintable c = inRanges ([(0x20, 0x7E)] ++ printableRanges) c := by
  rw [← ite_inRanges (by decide) (by decide +kernel), isPrintable]
  congr 1
  simp [inRanges, Char.le_def, UInt32.le_iff_toNat_le]

def digitRanges : List (Nat × Nat) := digitZeros.map fun z => (z, z + 9)

theorem isDecimal_inRanges (h : isDecimal c) : inRanges digitRanges c := by
  unfold isDecimal digitValue? at h
  simp only at h
  split_ifs at h with hc hd
  · exact inRanges_iff.2 ⟨(0x30, 0x39), by decide, hd⟩
  · cases h
  · rw [Option.isSome_map] at h
    obtain ⟨z, hz⟩ := Option.isSome_iff_exists.1 h
    have hzn := find?_some hz
    simp only [Bool.and_eq_true, decide_eq_true_eq] at hzn
    exact inRanges_iff.2 ⟨(z, z + 9), mem_map_of_mem (mem_of_find?_eq_some hz), hzn.1,
      Nat.le_of_lt_succ hzn.2⟩

theorem isDigitSign_inRanges (h : isDigitSign c) : inRanges (digitRanges ++ digitSignRanges) c :=
  inRanges_append.2 ((Bool.or_eq_true _ _ ▸ h : _ ∨ _).imp_left isDecimal_inRanges)

theorem isBreak_of_isPrintable (h : isPrintable c) : isBreak c = false :=
  not_inRanges (by decide +kernel) (isPrintable_eq c ▸ h)

theorem isBlank_not_isWord (h : isBlank c) : isWord c = false :=
  (isWord_eq c).trans (not_inRanges (by decide +kernel) h)

theorem isDigitSign_isWord (h : isDigitSign c) : isWord c := by
  rw [isWord_eq]
  exact inRanges_of_append (by decide +kernel) (by decide +kernel) (isDigitSign_inRanges h)

theorem isDecimal_isWord (h : isDecimal c) : isWord c :=
  isDigitSign_isWord (by rw [isDigitSign, h, Bool.true_or])

theorem isBreak_of_isDigitSign (h : isDigitSign c) : isBreak c = false :=
  not_inRanges (by decide +kernel) (isDigitSign_inRanges h)

end CallAtlas.Text

namespace CallAtlas.Ir

open Text

variable {c : Char}

def nameStarts : List (Nat × Nat) :=
  [(0x24, 0x24), (0x2D, 0x2E), (0x41, 0x5A), (0x5F, 0x5F), (0x61, 0x7A)]

theorem isNameStart_eq (c : Char) : isNameStart c = inRanges nameStarts c := by
  rw [Bool.eq_iff_iff]
  simp [isNameStart, inRanges, nameStarts, Char.le_def, ← Char.toNat_inj, UInt32.le_iff_toNat_le]
  omega

theorem isNameStart_of_isDigitSign (h : isDigitSign c) : isNameStart c = false :=
  (isNameStart_eq c).trans (not_inRanges (by decide +kernel) (isDigitSign_inRanges h))

theorem isDecimal_of_isNameStart (h : isNameStart c) : isDecimal c = false := by
  refine Bool.eq_false_iff.2 fun hd => ?_
  rw [isNameStart_of_isDigitSign (by rw [isDigitSign, hd, Bool.true_or])] at h
  cases h

end CallAtlas.Ir
