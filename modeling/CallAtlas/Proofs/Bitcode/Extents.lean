import CallAtlas.Proofs.Bitcode.Padding

/-!
# Extents are local

The walk over a module reads nothing behind the end that it finds: bit fields, heads of blocks,
blocks and modules are read alike in a string that is cut behind them, `readBits_take` up to
`walk_take`. Together with the words before a module, which may be dropped, a module is walked alike
when it is cut out: `walk_cut`. So a buffer that is divided again gives itself, and its structure
can lack nothing but a module block: `split_again`.
-/

namespace CallAtlas.Bitcode

open List

variable {depth : Nat} {origin : String} {p start : Nat} {v : Validator}

variable {data : Bytes} {pos n : Nat}

/-! ## Bit fields -/

theorem sub_take {k : Nat} (h : p + k ≤ n) : Bytes.sub (data.take n) p k = data.sub p k := by
  rw [Bytes.sub, Bytes.sub, drop_take, take_take, min_eq_left (by omega)]

theorem readBits_take {width v : Nat} (h : readBits data pos width = .ok (v, p)) (hp : p ≤ 8 * n)
    (hn : n ≤ data.length) : readBits (data.take n) pos width = .ok (v, p) := by
  have hend := readBits_pos h
  have hlength : (data.take n).length = n := by rw [length_take, min_eq_left hn]
  unfold readBits at h ⊢
  split at h
  · next hw => rw [if_pos hw, h]
  · next hw =>
    split at h
    · cases h
    · rw [if_neg hw, if_neg (by omega), ← h, bitsAt, bitsAt, sub_take (by omega)]

theorem readChunks_take {width shift acc v : Nat}
    (h : readChunks data pos width shift acc = (p, .ok v))
    (hp : p ≤ 8 * n) (hn : n ≤ data.length) :
    readChunks (data.take n) pos width shift acc = (p, .ok v) := by
  fun_induction readChunks data pos width shift acc with
  | case1 => cases h
  | case2 pos shift acc piece q hq _ hlast =>
    obtain ⟨rfl, hv⟩ := Prod.mk.inj h
    rw [readChunks_of_ok (readBits_take hq hp hn), if_pos hlast, ← hv]
  | case3 => cases h
  | case4 pos shift acc piece q hq _ hlast hover hw ih =>
    have hle :=
      le_readChunks data q width (shift + (width - 1))
        (acc + piece % Nat.pow 2 (width - 1) * Nat.pow 2 shift)
    rw [h] at hle
    rw [readChunks_of_ok (readBits_take hq (hle.trans hp) hn), if_neg hlast, if_neg hover,
      if_pos hw]
    exact ih h
  | case5 pos shift acc piece q hq _ hlast hover hw =>
    obtain ⟨rfl, hv⟩ := Prod.mk.inj h
    rw [readChunks_of_ok (readBits_take hq hp hn), if_neg hlast, if_neg hover, if_neg hw, ← hv]

/-! ## Blocks -/

theorem blockHead_take {id words body : Nat} (h : blockHead data pos = .ok (id, words, body))
    (hb : body ≤ n)
    (hn : n ≤ data.length) :
    blockHead (data.take n) pos = .ok (id, words, body) ∧ pos + 4 ≤ body := by
  obtain ⟨p1, p2, p3, p4, width, hkind, hid, hwidth, hwords, hbody⟩ := blockHead_eq_ok.1 h
  have hend1 : p1 = 8 * pos + 2 := readBits_pos hkind
  have hend2 := le_readChunks data p1 8 0 0
  have hend3 := le_readChunks data p2 4 0 0
  rw [hid] at hend2
  rw [hwidth] at hend3
  have hword := le_align32 p3
  have hend4 := readBits_pos hwords
  have hdvd : 32 ∣ align32 p3 := dvd_mul_left ..
  refine ⟨blockHead_eq_ok.2 ⟨p1, p2, p3, p4, width, readBits_take hkind ?_ hn,
    readChunks_take hid ?_ hn, readChunks_take hwidth ?_ hn, readBits_take hwords ?_ hn, hbody⟩, ?_⟩
  all_goals omega

theorem walkBlocks_take {stop : Nat} {ids : List Nat} (hp : pos ≤ data.length)
    (h : walkBlocks data pos = .ok (stop, ids)) :
    walkBlocks (data.take stop) pos = .ok (stop, ids) := by
  have hlength {k : Nat} (hk : k ≤ data.length) : (data.take k).length = k := by
    rw [length_take, min_eq_left hk]
  fun_induction walkBlocks data pos generalizing stop ids with
  | case1 pos he =>
    cases h
    refine walkBlocks_of_end ?_
    rw [endsAt, hlength hp, decide_eq_true (by omega), Bool.true_or, Bool.true_or]
  | case2 => cases h
  | case3 => cases h
  | case4 => cases h
  | case5 pos he id words body hb hl last ids hw ih =>
    cases h
    obtain ⟨hnext, hlast⟩ := walkBlocks_stop (by omega) hw
    obtain ⟨hhead, hpos⟩ := blockHead_take hb (show body ≤ last by omega) hlast
    have hopen : endsAt (data.take last) pos = false := by
      rw [← Bool.not_eq_true, endsAt, isMarker, sub_take (by omega), hlength hlast]
      rw [endsAt, isMarker] at he
      simp only [Bool.or_eq_true, decide_eq_true_eq] at he ⊢
      exact fun h => he (h.imp_left (Or.imp_left fun h => absurd h (by omega)))
    rw [walkBlocks_of_head hopen hhead, hlength hlast, if_neg (by omega), ih (by omega) hw]
    rfl

/-! ## Modules -/

theorem wrapperRange_take {inner stop : Nat} (h : wrapperRange data start = .ok (inner, stop)) :
    wrapperRange (data.take stop) start = .ok (inner, stop) := by
  obtain ⟨hinner, hstop, hend⟩ := wrapperRange_inside h
  have hword (k : Nat) (hk : k ≤ 16) : word (data.take stop) (start + k) =
      word data (start + k) := by
    rw [word, word, sub_take (by unfold wrapperSize at hinner; omega)]
  unfold wrapperRange at h ⊢
  simp only [hword 8 (by decide), hword 12 (by decide), length_take]
  split at h
  · cases h
  · dsimp only at h
    split at h
    · cases h
    · simp only [Except.ok.injEq, Prod.mk.injEq] at h
      rw [if_neg (by omega), if_neg (by omega), h.2, h.1]

theorem walk_take {e : Extent} (h : walk depth data start = .ok e) :
    walk depth (data.take e.stop) start = .ok e := by
  obtain ⟨-, hstart, hend⟩ := walk_extent h
  have hsub : Bytes.sub (data.take e.stop) start 4 = data.sub start 4 := sub_take hstart
  unfold walk
  rcases walk_ok h with ⟨hm, depth, inner, stop, e', rfl, hr, hw, rfl⟩ | ⟨hm, stop, blocks, hw, rfl⟩
  · rw [hsub, if_pos hm, wrapperRange_take hr]
    simp only [take_take, min_self, hw]
  · rw [hsub, hm, if_neg (by decide), if_pos rfl, walkBlocks_take (by omega) hw]

theorem walk_cut {e : Extent} (hs : 4 ∣ start) (h : walk depth data start = .ok e) :
    walk depth (data.sub start (e.stop - start)) 0 = .ok ⟨0, e.stop - start, e.blocks,
      e.wrapped⟩ := by
  obtain ⟨-, hstart, hend⟩ := walk_extent h
  have hlength : (data.take start).length = start := by rw [length_take, min_eq_left (by omega)]
  have hcut : data.take e.stop = data.take start ++ data.sub start (e.stop - start) := by
    rw [Bytes.sub, ← take_add, Nat.add_sub_cancel' (by omega)]
  have hmoved := walk_append (d := data.sub start (e.stop - start))
    (by rwa [hlength]) depth 0
  rw [← hcut, hlength, add_zero, walk_take h] at hmoved
  cases hw : walk depth (data.sub start (e.stop - start)) 0 with
  | error f =>
    rw [hw] at hmoved
    cases hmoved
  | ok e' =>
    obtain ⟨hstart', -, -⟩ := walk_extent hw
    rw [hw] at hmoved
    obtain rfl := Except.ok.inj hmoved
    obtain ⟨first, stop, blocks, wrapped⟩ := e'
    obtain rfl : first = 0 := hstart'
    simp only [Extent.moved, Nat.add_sub_cancel_left]

/-! ## Buffers -/

theorem mem_splitFrom {b : Buffer} (index pos : Nat)
    (h : b ∈ (splitFrom depth v origin data index pos).1) :
    ∃ i p stop, nextBuffer depth v origin data i p = .ok (b, stop) := by
  fun_induction splitFrom depth v origin data index pos with
  | case1 | case2 => cases h
  | case3 index pos hl b' stop hnext rest ih =>
    rcases mem_cons.1 h with rfl | h
    · exact ⟨index, _, stop, hnext⟩
    · exact ih h

theorem walk_buffer {b : Buffer} (h : b ∈ (split depth v origin data).1)
    (hb : 4 ∣ b.offset) : isMarker b.data 0 ∧ ∃ blocks wrapped,
      walk depth b.data 0 = .ok ⟨0, b.data.length, blocks, wrapped⟩ := by
  obtain ⟨i, p, stop, hnext⟩ := mem_splitFrom 0 0 h
  obtain ⟨hm, hstart, hend, rfl, ⟨e, hw, rfl⟩, -⟩ := nextBuffer_slice hnext
  refine ⟨?_, e.blocks, e.wrapped, ?_⟩
  · rw [isMarker, sub_sub (by omega)]
    exact hm
  · show walk depth (data.sub p (e.stop - p)) 0 = .ok ⟨0, (data.sub p (e.stop - p)).length,
        e.blocks, e.wrapped⟩
    rw [walk_cut hb hw, length_sub (by omega) hend]

theorem skipZeros_of_isMarker (h : isMarker data 0) : skipZeros data 0 = 0 ∧ 0 < data.length := by
  obtain ⟨r, hr⟩ : ∃ r, data = magic ++ r ∨ data = wrapperMagic ++ r := by
    refine ⟨data.drop 4, ?_⟩
    simp only [isMarker, Bool.or_eq_true, decide_eq_true_eq, Bytes.sub, drop_zero] at h
    exact h.imp (fun h => by rw [← h, take_append_drop]) (fun h => by rw [← h, take_append_drop])
  rcases hr with rfl | rfl
  · exact ⟨rfl, Nat.succ_pos _⟩
  · exact ⟨rfl, Nat.succ_pos _⟩

theorem split_whole {blocks : List Nat} {wrapped : Bool}
    (hm : isMarker data 0) (hw : walk depth data 0 = .ok ⟨0, data.length, blocks, wrapped⟩)
    (hv : v.check depth ⟨data, origin, 0, 0⟩ = .ok none) :
    split depth v origin data = ([⟨data, origin, 0, 0⟩], none) := by
  obtain ⟨hskip, hpos⟩ := skipZeros_of_isMarker hm
  have hnext : nextBuffer depth v origin data 0 0 = .ok (⟨data, origin, 0, 0⟩, data.length) := by
    have hall : data.sub 0 (data.length - 0) = data := by
      rw [Bytes.sub, drop_zero, Nat.sub_zero, take_length]
    unfold nextBuffer
    simp only [hm, hw, hall, hv, Bool.not_true, if_false, Bool.false_eq_true]
  rw [split, splitFrom_of_ok (by omega) (by rw [hskip]; exact hnext),
    splitFrom_of_end (le_skipZeros ..)]

/-- A module at a whole word is walked alike when it is cut out. So a buffer at a whole word of a
section, divided again with a validator that accepts it, gives itself, and the check of its
structure can only miss a module block. -/
theorem split_again (depth : Nat) (data : Bytes) :
    (∀ start e, 4 ∣ start → walk depth data start = .ok e →
      walk depth (data.sub start (e.stop - start)) 0 = .ok ⟨0, e.stop - start, e.blocks,
        e.wrapped⟩) ∧
    ∀ v origin, ∀ b ∈ (split depth v origin data).1, 4 ∣ b.offset →
      (∀ v' origin', v'.check depth ⟨b.data, origin', 0, 0⟩ = .ok none →
        split depth v' origin' b.data = ([⟨b.data, origin', 0, 0⟩], none)) ∧
      ∃ e, walk depth b.data 0 = .ok e ∧ structureComplaint depth b =
        .ok (if e.hasModule then none else some ⟨b.identifier ++ " has no MODULE_BLOCK",
          some b.offset⟩) := by
  refine ⟨fun start e hs hw => walk_cut hs hw, fun v origin b hb ho => ?_⟩
  obtain ⟨hm, blocks, wrapped, hw⟩ := walk_buffer hb ho
  refine ⟨fun v' origin' hv => split_whole hm hw hv, _, hw, ?_⟩
  simp only [structureComplaint, hw, ne_eq]
  cases Extent.hasModule ⟨0, b.data.length, blocks, wrapped⟩ <;> rfl

/-- A module behind three words of padding is cut out, walked and divided again as it is alone. -/
theorem sampleTagged_again :
    let data := Bytes.zeros 12 ++ sampleTagged.bytes
    let e : Extent :=
      ⟨12, 12 + sampleTagged.bytes.length, [identificationBlock, moduleBlock], false⟩
    4 ∣ 12 ∧ walk 500 data 12 = .ok e ∧
      walk 500 (data.sub 12 (e.stop - 12)) 0 = .ok ⟨0, e.stop - 12, e.blocks, false⟩ ∧
      (split 500 bitstreamValidator "" data).1 = [⟨sampleTagged.bytes, "", 0, 12⟩] ∧
      split 500 bitstreamValidator "x" sampleTagged.bytes = ([⟨sampleTagged.bytes, "x", 0, 0⟩],
        none) := by
  intro data e
  have hl : sampleTagged.bytes.length < 2 ^ 32 := by decide
  have halone : walk 500 sampleTagged.bytes 0 =
      .ok ⟨0, sampleTagged.bytes.length, [identificationBlock, moduleBlock], false⟩ := by
    have h := walk_specimen hl (show endsAt [] 0 = true from rfl) 500
    rwa [append_nil] at h
  have hw : walk 500 data 12 = .ok e := by
    have hmoved := walk_append (u := Bytes.zeros 12) (d := sampleTagged.bytes) (by decide) 500 0
    rw [halone] at hmoved
    exact hmoved
  have hsplit : (split 500 bitstreamValidator "" data).1 = [⟨sampleTagged.bytes, "", 0, 12⟩] := by
    rw [split_zeros, splitFrom_append (by decide)]
    have hmoved := congrArg (divisionMoved (Bytes.zeros 12).length) sampleTagged_split
    rw [split] at hmoved
    rw [hmoved]
    rfl
  have hcheck : bitstreamValidator.check 500 ⟨sampleTagged.bytes, "x", 0, 0⟩ = .ok none := by
    dsimp only [bitstreamValidator]
    exact structureComplaint_specimen hl (by decide) "x" 0 0
  refine ⟨by decide, hw, (split_again 500 data).1 12 e (by decide) hw, hsplit, ?_⟩
  exact ((split_again 500 data).2 bitstreamValidator "" ⟨sampleTagged.bytes, "", 0, 12⟩
    (by rw [hsplit]; exact mem_singleton_self _) (by decide)).1 bitstreamValidator "x" hcheck

end CallAtlas.Bitcode
