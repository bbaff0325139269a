import CallAtlas.Proofs.Bitcode.Concat

/-!
# Padding before a section

Zero bytes before a section are skipped one by one, but blocks are aligned to words of the whole
section. Behind whole words of padding the division is the same, moved: `split_padded`. A bare
module, one in no wrapper, is aligned twice: in the section, and once more from its own first byte
when its structure is checked. Both agree only if it starts at a whole word, `nextBuffer_bare`; so
behind other padding a section with a bare module cannot be divided to its end.
-/

namespace CallAtlas.Bitcode

open List Bytes

variable {depth : Nat} {u d data : Bytes} {origin : String}

variable {b : Buffer} {index pos stop : Nat}

/-! ## Alignment -/

theorem blockHead_aligned {id words body : Nat} (h : blockHead data pos = .ok (id, words, body)) :
    4 ∣ body := by
  obtain ⟨p1, p2, p3, p4, width, -, -, -, hwords, rfl⟩ := blockHead_eq_ok.1 h
  have hpos := readBits_pos hwords
  unfold align32 at hpos
  omega

theorem walkBlocks_aligned {ids : List Nat} (h : walkBlocks data pos = .ok (stop, ids))
    (hi : 4 ∣ pos ∨ ids ≠ []) : 4 ∣ stop := by
  fun_induction walkBlocks data pos generalizing stop ids with
  | case1 pos he =>
    cases h
    exact hi.resolve_right fun h => h rfl
  | case2 => cases h
  | case3 => cases h
  | case4 => cases h
  | case5 pos he id words body hb hl last rest hw ih =>
    cases h
    exact ih hw (.inl (dvd_add (blockHead_aligned hb) (dvd_mul_right ..)))

theorem walkBlocks_nil (h : walkBlocks data pos = .ok (stop, [])) : stop = pos := by
  cases he : endsAt data pos with
  | true =>
    rw [walkBlocks_of_end he] at h
    cases h
    rfl
  | false =>
    cases hb : blockHead data pos with
    | error f =>
      rw [walkBlocks_of_error he hb] at h
      cases h
    | ok r =>
      rw [walkBlocks_of_head he hb] at h
      split at h
      · cases h
      · cases hw : walkBlocks data (r.2.2 + 4 * r.2.1) <;> rw [hw] at h <;> cases h

/-! ## One step -/

theorem structureComplaint_none (h : structureComplaint depth b = .ok none) :
    ∃ e, walk depth b.data 0 = .ok e ∧ e.hasModule ∧ e.stop = b.data.length := by
  unfold structureComplaint at h
  split at h
  · cases h
  · cases h
  · next e hw =>
    split at h
    · cases h
    · next hm =>
      split at h
      · cases h
      · next hs => exact ⟨e, hw, by simpa using hm, by simpa using hs⟩

/-- The buffer holds a module in no wrapper. -/
def Buffer.Bare (b : Buffer) : Prop := b.data.sub 0 4 = magic

instance (b : Buffer) : Decidable b.Bare := inferInstanceAs (Decidable (b.data.sub 0 4 = magic))

theorem walk_bare {e : Extent} (hm : data.sub pos 4 = magic) (h : walk depth data pos = .ok e) :
    walkBlocks data (pos + 4) = .ok (e.stop, e.blocks) := by
  rcases walk_ok h with ⟨hm', -⟩ | ⟨-, stop, blocks, hw, rfl⟩
  · exact absurd (hm.symm.trans hm') (by decide)
  · exact hw

theorem sub_sub {n m : Nat} (h : m ≤ n) : (data.sub pos n).sub 0 m = data.sub pos m := by
  rw [sub, sub, sub, drop_zero, take_take, min_eq_left h]

theorem nextBuffer_bare
    (h : nextBuffer depth bitstreamValidator origin data index pos = .ok (b, stop))
    (hm : data.sub pos 4 = magic) :
    4 ∣ pos := by
  obtain ⟨-, h1, h2, rfl, ⟨e, hw, rfl⟩, hc⟩ := nextBuffer_slice h
  obtain ⟨e', hw', hmodule, hstop⟩ := structureComplaint_none hc
  have hlen : (data.sub pos (e.stop - pos)).length = e.stop - pos := length_sub (by omega) h2
  have hwalk := walk_bare hm hw
  have hwalk' := walk_bare (by rw [sub_sub (by omega), hm]) hw'
  have hne : e'.blocks ≠ [] := by
    rintro hb
    rw [Extent.hasModule, hb] at hmodule
    cases hmodule
  -- The check sees the end of the blocks from the first byte of the module, the walk from that of
  -- the section.
  have hown : 4 ∣ e'.stop := walkBlocks_aligned hwalk' (.inr hne)
  rw [hstop, hlen] at hown
  by_cases hb : e.blocks = []
  · -- Without blocks the buffer would be the magic alone, and the check would find no block either.
    rw [hb] at hwalk
    have hend : endsAt (data.sub pos (e.stop - pos)) (0 + 4) := by
      have := walkBlocks_nil hwalk
      rw [endsAt, decide_eq_true (by omega), Bool.true_or, Bool.true_or]
    rw [walkBlocks_of_end hend] at hwalk'
    simp only [Except.ok.injEq, Prod.mk.injEq] at hwalk'
    exact absurd hwalk'.2.symm hne
  · have := walkBlocks_aligned hwalk (.inr hb)
    omega

theorem nextBuffer_wrapped
    (h : nextBuffer depth bitstreamValidator origin data index pos = .ok (b, stop))
    (hm : data.sub pos 4 = wrapperMagic) :
    ∃ inner, wrapperRange data pos = .ok (inner, stop) := by
  obtain ⟨-, -, -, -, ⟨e, hw, rfl⟩, -⟩ := nextBuffer_slice h
  rcases walk_ok hw with ⟨-, -, inner, stop, -, -, hr, -, rfl⟩ | ⟨hm', -⟩
  · exact ⟨inner, hr⟩
  · exact absurd (hm.symm.trans hm') (by decide)

section moved

variable {stop' : Nat} {b' : Buffer}
  (h : nextBuffer depth bitstreamValidator origin d index pos = .ok (b, stop))
  (hu : nextBuffer depth bitstreamValidator origin (u ++ d) index (u.length + pos) =
    .ok (b', stop'))

include h hu

/-- A bare module that is found, alone and behind other bytes, has whole words before it. -/
theorem nextBuffer_bare_moved (hm : d.sub pos 4 = magic) : 4 ∣ u.length := by
  have hpos := nextBuffer_bare h hm
  have hpos' := nextBuffer_bare hu (by rw [sub_append, hm])
  exact (Nat.dvd_add_left hpos).1 hpos'

theorem nextBuffer_wrapped_moved (hm : d.sub pos 4 = wrapperMagic) : stop' = u.length + stop := by
  obtain ⟨inner, hr⟩ := nextBuffer_wrapped h hm
  obtain ⟨inner', hr'⟩ := nextBuffer_wrapped hu (by rw [sub_append, hm])
  rw [wrapperRange_moved, hr] at hr'
  exact (Prod.mk.inj (Except.ok.inj hr')).2.symm

end moved

/-! ## The whole division -/

/-- If a section is divided to its end, alone and behind other bytes, both divisions are the same
but for the places; and if it holds a bare module, the bytes before it are whole words. -/
theorem splitFrom_moved (index pos : Nat)
    (hd : (splitFrom depth bitstreamValidator origin d index pos).2 = none)
    (hu : (splitFrom depth bitstreamValidator origin (u ++ d) index (u.length + pos)).2 = none) :
    splitFrom depth bitstreamValidator origin (u ++ d) index (u.length + pos) =
        divisionMoved u.length (splitFrom depth bitstreamValidator origin d index pos) ∧
      ((∃ b ∈ (splitFrom depth bitstreamValidator origin d index pos).1, b.Bare) →
        4 ∣ u.length) := by
  have hlength (n : Nat) : (u ++ d).length ≤ u.length + n ↔ d.length ≤ n := by
    rw [length_append]
    omega
  fun_induction splitFrom depth bitstreamValidator origin d index pos with
  | case1 index pos hl =>
    rw [splitFrom_of_end (by rw [skipZeros_append, hlength]; exact hl)]
    refine ⟨rfl, ?_⟩
    rintro ⟨b, hb, -⟩
    exact absurd hb not_mem_nil
  | case2 => cases hd
  | case3 index pos hl b stop h rest ih =>
    have hl' : ¬ (u ++ d).length ≤ skipZeros (u ++ d) (u.length + pos) := by
      rw [skipZeros_append, hlength]
      exact hl
    cases hn : nextBuffer depth bitstreamValidator origin (u ++ d) index
      (skipZeros (u ++ d) (u.length + pos)) with
    | error e =>
      rw [splitFrom_of_error hl' hn] at hu
      cases hu
    | ok r =>
      obtain ⟨b', stop'⟩ := r
      rw [splitFrom_of_ok hl' hn] at hu
      rw [skipZeros_append] at hn
      obtain ⟨hm, h1, -, rfl, -⟩ := nextBuffer_slice h
      obtain ⟨-, -, -, rfl, -⟩ := nextBuffer_slice hn
      simp only [isMarker, Bool.or_eq_true, decide_eq_true_eq] at hm
      rcases hm with hm | hm
      · have hu4 := nextBuffer_bare_moved h hn hm
        have hmoved := @splitFrom_append depth u d hu4 origin index pos
        rw [splitFrom_of_ok hl h] at hmoved
        exact ⟨hmoved, fun _ => hu4⟩
      · obtain rfl := nextBuffer_wrapped_moved h hn hm
        obtain ⟨heq, hbare⟩ := ih hd hu
        have hsize : u.length + stop - (u.length + skipZeros d pos) = stop - skipZeros d pos := by
          omega
        constructor
        · rw [splitFrom_of_ok hl' (by rw [skipZeros_append]; exact hn), heq, hsize, sub_append]
          rfl
        · rintro ⟨c, hc, hb⟩
          rcases mem_cons.1 hc with rfl | hc
          · rw [Buffer.Bare, sub_sub (by omega), hm] at hb
            cases hb
          · exact hbare ⟨c, hc, hb⟩

theorem split_zeros (k : Nat) (d : Bytes) : split depth bitstreamValidator origin (zeros k ++ d) =
      splitFrom depth bitstreamValidator origin (zeros k ++ d) 0 ((zeros k).length + 0) := by
  have hskip := skipZeros_zeros [] k d
  rw [nil_append, length_nil, zero_add] at hskip
  rw [split, splitFrom_of_skipZeros hskip, zeros, length_replicate, add_zero]

/-- Behind whole words of padding a section is divided as it is alone, moved. Behind any padding a
section that can be divided to its end is divided so, if this division comes to its end too; and
with a bare module in the section it does exactly behind whole words. -/
theorem split_padded (depth : Nat) (origin : String) (d : Bytes) (k : Nat) :
    (4 ∣ k → split depth bitstreamValidator origin (Bytes.zeros k ++ d) =
      divisionMoved k (split depth bitstreamValidator origin d)) ∧
    ((split depth bitstreamValidator origin d).2 = none →
      (split depth bitstreamValidator origin (Bytes.zeros k ++ d)).2 = none →
        split depth bitstreamValidator origin (Bytes.zeros k ++ d) =
          divisionMoved k (split depth bitstreamValidator origin d)) ∧
    ((split depth bitstreamValidator origin d).2 = none →
      (∃ b ∈ (split depth bitstreamValidator origin d).1, b.Bare) →
      ((split depth bitstreamValidator origin (Bytes.zeros k ++ d)).2 = none ↔ 4 ∣ k)) := by
  have hlength : (Bytes.zeros k).length = k := length_replicate
  have hwords (hk : 4 ∣ k) : split depth bitstreamValidator origin (Bytes.zeros k ++ d) =
      divisionMoved k (split depth bitstreamValidator origin d) := by
    rw [split_zeros, splitFrom_append (by rwa [hlength]), hlength]
    rfl
  refine ⟨hwords, fun hd hk => ?_, fun hd hbare => ⟨fun hk => ?_, fun hk => ?_⟩⟩
  · rw [split_zeros] at hk ⊢
    rw [(splitFrom_moved 0 0 hd hk).1, hlength]
    rfl
  · rw [split_zeros] at hk
    have := (splitFrom_moved 0 0 hd hk).2 hbare
    rwa [hlength] at this
  · rw [hwords hk, divisionMoved, hd]
    rfl

theorem split_specimen (origin : String) {s : Specimen} (hl : s.bytes.length < 2 ^ 32)
    (hs : s.followed depth) :
    split depth bitstreamValidator origin s.bytes = ([⟨s.bytes, origin, 0, 0⟩], none) := by
  have h :=
    split_concat_eq depth (.inl rfl) origin (show ∀ t ∈ [s], t.bytes.length < 2 ^ 32 by
      simpa using hl)
  have hjoin : concatModules [s.bytes] 1 = s.bytes := by
    show [] ++ s.bytes ++ zeros (padding _ 1) = s.bytes
    rw [padding, Nat.mod_one, zeros, replicate_zero, append_nil, nil_append]
  rw [map_singleton, hjoin, takeWhile_cons_of_pos hs, all_cons, hs] at h
  exact h

/-- A module with the tag `a`. -/
def sampleTagged : Specimen := ⟨ofAscii "a", []⟩

theorem sampleTagged_split :
    split 500 bitstreamValidator "" sampleTagged.bytes = ([⟨sampleTagged.bytes, "", 0, 0⟩], none) :=
  split_specimen "" (by decide) (by decide)

theorem sampleTagged_bare :
    ∃ b ∈ (split 500 bitstreamValidator "" sampleTagged.bytes).1, b.Bare := by
  rw [sampleTagged_split]
  refine ⟨_, mem_singleton_self _, ?_⟩
  show (encodeModule _ true).sub 0 4 = magic
  rfl

theorem sampleTagged_padded : (split 500 bitstreamValidator "" sampleTagged.bytes).2 = none ∧
      (∃ b ∈ (split 500 bitstreamValidator "" sampleTagged.bytes).1, b.Bare) ∧
      split 500 bitstreamValidator "" (Bytes.zeros 12 ++ sampleTagged.bytes) =
        divisionMoved 12 (split 500 bitstreamValidator "" sampleTagged.bytes) ∧
      (split 500 bitstreamValidator "" (Bytes.zeros 2 ++ sampleTagged.bytes)).2 ≠ none := by
  have hend : (split 500 bitstreamValidator "" sampleTagged.bytes).2 = none :=
    congrArg Prod.snd sampleTagged_split
  refine ⟨hend, sampleTagged_bare, (split_padded 500 "" sampleTagged.bytes 12).1 (by decide),
    fun h => ?_⟩
  exact absurd (((split_padded 500 "" sampleTagged.bytes 2).2.2 hend sampleTagged_bare).1 h)
    (by decide)

/-- One zero byte before a module that is divided alone, and the division breaks off. -/
theorem sampleTagged_shifted :
    split 500 bitstreamValidator "" sampleTagged.bytes = ([⟨sampleTagged.bytes, "", 0, 0⟩], none) ∧
      (split 500 bitstreamValidator "" (Bytes.zeros 1 ++ sampleTagged.bytes)).2 ≠ none := by
  refine ⟨sampleTagged_split, fun hk => ?_⟩
  rw [split_zeros] at hk
  have h4 := (splitFrom_moved 0 0 (congrArg Prod.snd sampleTagged_split) hk).2 sampleTagged_bare
  exact absurd h4 (by decide)

end CallAtlas.Bitcode
