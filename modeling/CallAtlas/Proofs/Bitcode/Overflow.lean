import CallAtlas.Proofs.Bitcode.Fields

/-!
# The limit on numbers in chunks

A number in chunks is read until a chunk says that it is the last. The reader gives up when the
chunks that have more behind them take more than 64 bits, so it compares places with the limit and
not the number: `Ending` says how a reading can end. What the chunk at the last admitted place holds
is not looked at, and a number is below `2 ^ 64` exactly if that chunk leaves it there:
`vbr_below_iff`.
-/

namespace CallAtlas.Bitcode

variable {data : Bytes} {pos w k : Nat}

/-- The first `k` chunks from the position are in the data and say that more follow. -/
def Continues (data : Bytes) (pos w k : Nat) : Prop :=
  ∀ i < k, pos + (i + 1) * w ≤ 8 * data.length ∧ 2 ^ (w - 1) ≤ bitsAt data (pos + i * w) w

/-- The ends of a reading: the data end before chunk `k`, chunk `k` is the last, or it is one too
many. -/
inductive Ending (data : Bytes) (pos w : Nat) : Nat × Except StreamFault Nat → Prop
  | cut {k : Nat} (hk : Continues data pos w k) (hlimit : k * (w - 1) ≤ 64)
      (h : 8 * data.length < pos + (k + 1) * w) : Ending data pos w (pos + k * w,
        .error ⟨.truncated, (pos + k * w) / 8⟩)
  | last {k low : Nat} (hk : Continues data pos w k) (hlimit : k * (w - 1) ≤ 64)
    (hlow : low < 2 ^ (k * (w - 1)))
      (h : bitsAt data (pos + k * w) w < 2 ^ (w - 1)) :
      Ending data pos w (pos + (k + 1) * w,
        .ok (low + bitsAt data (pos + k * w) w * 2 ^ (k * (w - 1))))
  | exceeded {k : Nat} (hk : Continues data pos w (k + 1)) (hlimit : k * (w - 1) ≤ 64)
    (h : 64 < (k + 1) * (w - 1)) :
      Ending data pos w (pos + (k + 1) * w, .error ⟨.overflow, (pos + (k + 1) * w) / 8⟩)

theorem Continues.succ (hk : Continues data pos w k) (hin : pos + (k + 1) * w ≤ 8 * data.length)
    (h : 2 ^ (w - 1) ≤ bitsAt data (pos + k * w) w) : Continues data pos w (k + 1) := by
  intro i hi
  rcases Nat.lt_succ_iff_lt_or_eq.1 hi with hi | rfl
  · exact hk i hi
  · exact ⟨hin, h⟩

theorem readBits_cases (data : Bytes) (pos : Nat) (hw : 0 < w) :
    (8 * data.length < pos + w ∧ readBits data pos w = .error ⟨.truncated, pos / 8⟩) ∨
      (pos + w ≤ 8 * data.length ∧ readBits data pos w = .ok (bitsAt data pos w, pos + w)) := by
  rw [readBits, if_neg hw.ne']
  split_ifs with h
  · exact .inl ⟨h, rfl⟩
  · exact .inr ⟨not_lt.1 h, rfl⟩

/-- From chunk `k` on: the number read so far is below the place of that chunk. -/
theorem readChunks_ending {acc : Nat} (hw : 2 ≤ w) (hlimit : k * (w - 1) ≤ 64)
    (hacc : acc < 2 ^ (k * (w - 1)))
    (hk : Continues data pos w k) :
    Ending data pos w (readChunks data (pos + k * w) w (k * (w - 1)) acc) := by
  have hnext : pos + k * w + w = pos + (k + 1) * w := by ring
  have hshift : k * (w - 1) + (w - 1) = (k + 1) * (w - 1) := by ring
  induction hn : 64 - k * (w - 1) using Nat.strong_induction_on generalizing k acc with
  | _ n ih =>
    rcases readBits_cases data (pos + k * w) (Nat.zero_lt_of_lt hw) with ⟨hout, hread⟩
      | ⟨hin, hread⟩
    · rw [readChunks_of_error hread]
      exact .cut hk hlimit (hnext ▸ hout)
    · rw [readChunks_of_ok hread, hnext, hshift]
      rw [hnext] at hin
      simp only [Nat.pow_eq]
      split_ifs with hlast hover
      · rw [Nat.mod_eq_of_lt hlast]
        exact .last hk hlimit hacc hlast
      · exact .exceeded (hk.succ hin (not_lt.1 hlast)) hlimit hover
      · refine ih _ (by omega) (not_lt.1 hover) ?_ (hk.succ hin (not_lt.1 hlast)) (by ring)
          (by ring) rfl
        calc acc + bitsAt data (pos + k * w) w % 2 ^ (w - 1) * 2 ^ (k * (w - 1))
            < (bitsAt data (pos + k * w) w % 2 ^ (w - 1) + 1) * 2 ^ (k * (w - 1)) := by
              rw [add_one_mul]
              omega
          _ ≤ 2 ^ (w - 1) * 2 ^ (k * (w - 1)) :=
            Nat.mul_le_mul_right _ (Nat.mod_lt _ (by positivity))
          _ = 2 ^ ((k + 1) * (w - 1)) := by rw [← pow_add, ← hshift, add_comm]
      · omega

theorem readVbr_ending (hw : 2 ≤ w) (data : Bytes) (pos : Nat) :
    Ending data pos w (readVbr data pos w) := by
  have h : Ending data pos w (readChunks data (pos + 0 * w) w (0 * (w - 1)) 0) :=
    readChunks_ending hw (by simp) (by simp) fun _ hi => absurd hi (Nat.not_lt_zero _)
  rwa [zero_mul, zero_mul] at h

theorem add_shifted_lt {low c s n : Nat} (hlow : low < 2 ^ s) (hs : s ≤ n) :
    low + c * 2 ^ s < 2 ^ n ↔ c < 2 ^ (n - s) := by
  have hsplit : 2 ^ n = 2 ^ (n - s) * 2 ^ s := by rw [← pow_add, Nat.sub_add_cancel hs]
  rw [hsplit, ← Nat.div_lt_iff_lt_mul (by positivity), Nat.add_mul_div_right _ _ (by positivity),
    Nat.div_eq_of_lt hlow, zero_add]

/-- A number that is read is below `2 ^ 64` exactly if its last chunk, behind `k` others, has no bit
at or above the place 64, and it never has more bits than its chunks. The reader complains of an
overflow exactly if all chunks at places up to 64 say that more follow. -/
theorem vbr_below_iff (hw : 2 ≤ w) (data : Bytes) (pos : Nat) :
    (∀ p v, readVbr data pos w = (p, .ok v) → ∃ k ≤ 64 / (w - 1), p = pos + (k + 1) * w ∧
      v < 2 ^ ((k + 1) * (w - 1)) ∧
      (v < 2 ^ 64 ↔ bitsAt data (pos + k * w) w < 2 ^ (64 - k * (w - 1)))) ∧
    ((∃ p, readVbr data pos w = (p, .error ⟨.overflow, p / 8⟩)) ↔
      Continues data pos w (64 / (w - 1) + 1)) := by
  have hplace {k : Nat} : k * (w - 1) ≤ 64 ↔ k ≤ 64 / (w - 1) :=
    (Nat.le_div_iff_mul_le (by omega)).symm
  have hend := readVbr_ending hw data pos
  refine ⟨fun p v h => ?_, ?_, fun hall => ?_⟩
  · rw [h] at hend
    cases hend with
    | @last k low _ hlimit hlow hlast =>
      have hmore : k * (w - 1) + (w - 1) = (k + 1) * (w - 1) := by ring
      refine ⟨k, hplace.1 hlimit, rfl, ?_, add_shifted_lt hlow hlimit⟩
      rwa [← hmore, add_shifted_lt hlow (Nat.le_add_right ..), Nat.add_sub_cancel_left]
  · rintro ⟨p, h⟩
    rw [h] at hend
    cases hend with
    | @exceeded k hk hlimit hover =>
      have hlast : 64 / (w - 1) < k + 1 :=
        not_le.1 fun hle => absurd (hplace.2 hle) (not_le.2 hover)
      exact fun i hi => hk i (by omega)
  · cases hread : readVbr data pos w with
    | mk p r =>
      rw [hread] at hend
      cases hend with
      | cut _ hlimit hout =>
        exact absurd (hall _ (Nat.lt_succ_of_le (hplace.1 hlimit))).1 (not_le.2 hout)
      | last _ hlimit _ hlast =>
        exact absurd (hall _ (Nat.lt_succ_of_le (hplace.1 hlimit))).2 (not_le.2 hlast)
      | exceeded => exact ⟨_, rfl⟩

/-- The bit at place 64 of a tenth chunk is read. -/
theorem overlong_accepted : readVbr (List.replicate 9 128 ++ [2]) 0 8 = (80, .ok (2 ^ 64)) := by
  decide +kernel

theorem longest_below_iff : readVbr (List.replicate 9 255 ++ [1]) 0 8 = (80, .ok (2 ^ 64 - 1)) ∧
    ∃ k ≤ 64 / (8 - 1), 80 = 0 + (k + 1) * 8 ∧ 2 ^ 64 - 1 < 2 ^ ((k + 1) * (8 - 1)) ∧
      (2 ^ 64 - 1 < 2 ^ 64 ↔
        bitsAt (List.replicate 9 255 ++ [1]) (0 + k * 8) 8 < 2 ^ (64 - k * (8 - 1))) := by
  have hread : readVbr (List.replicate 9 255 ++ [1]) 0 8 = (80, .ok (2 ^ 64 - 1)) := by
    decide +kernel
  exact ⟨hread, (vbr_below_iff (by decide) _ 0).1 80 (2 ^ 64 - 1) hread⟩

end CallAtlas.Bitcode
