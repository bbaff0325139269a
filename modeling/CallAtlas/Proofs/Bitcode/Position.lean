import CallAtlas.Proofs.Bitcode.Split

/-!
# A section behind other bytes

Bytes before a section move what is read from it by their number. Bit fields are read alike behind
any bytes, `readBits_append` and `readChunks_append`. The head of a block is aligned to words of the
whole string, so blocks and modules are read alike behind whole words only: `blockHead_append`,
`walkBlocks_append`, `walk_append`, and for the division into buffers `splitFrom_append`.
-/

namespace CallAtlas.Bitcode

variable {depth : Nat} {u d : Bytes}

variable {index pos : Nat} {origin : String}

/-! ## Results moved by a number of bytes -/

/-- The error of a walk that started `k` bytes further on. -/
def WalkError.moved (k : Nat) : WalkError → WalkError
  | .malformed f => .malformed (f.moved k)
  | .tooDeep => .tooDeep

/-- The extent, `k` bytes further on. -/
def Extent.moved (k : Nat) (e : Extent) : Extent := ⟨k + e.start, k + e.stop, e.blocks, e.wrapped⟩

/-- The buffer, cut out `k` bytes further on. -/
def Buffer.moved (k : Nat) (b : Buffer) : Buffer := { b with offset := k + b.offset }

/-- The failure with the byte that it names `k` bytes further on. -/
def failureMoved (k : Nat) : Failure → Failure
  | .fault ⟨.malformed reason offset, binary, named⟩ =>
    .fault ⟨.malformed reason (offset.map (k + ·)), binary, named⟩
  | e => e

/-- The outcome of a division that started `k` bytes further on. -/
def divisionMoved (k : Nat) (r : List Buffer × Option Failure) : List Buffer × Option Failure :=
  (r.1.map (Buffer.moved k), r.2.map (failureMoved k))

/-! ## Bit fields -/

theorem bitsAt_append (pos width : Nat) :
    bitsAt (u ++ d) (8 * u.length + pos) width = bitsAt d pos width := by
  have hbyte : (8 * u.length + pos) / 8 = u.length + pos / 8 := by omega
  have hbit : (8 * u.length + pos) % 8 = pos % 8 := by omega
  rw [bitsAt, bitsAt, hbyte, hbit, sub_append]

theorem readBits_append (pos width : Nat) : readBits (u ++ d) (8 * u.length + pos) width =
      ((readBits d pos width).map fun r => (r.1, 8 * u.length + r.2)).mapError
        (StreamFault.moved u.length) := by
  have hlength : 8 * (u ++ d).length < 8 * u.length + pos + width ↔ 8 * d.length < pos + width := by
    rw [List.length_append]
    omega
  have hbyte : (8 * u.length + pos) / 8 = u.length + pos / 8 := by omega
  unfold readBits
  simp only [bitsAt_append, hlength, hbyte]
  split
  · rfl
  · split
    · rfl
    · rw [add_assoc]
      rfl

theorem readChunks_of_error {width shift acc : Nat} {e : StreamFault}
    (h : readBits d pos width = .error e) :
    readChunks d pos width shift acc = (pos, .error e) := by
  rw [readChunks]
  split <;> next h' =>
    rw [h] at h'
    cases h' <;> rfl

/-- What the reading of chunks makes of the next chunk. -/
theorem readChunks_of_ok {width shift acc piece p : Nat}
    (h : readBits d pos width = .ok (piece, p)) :
    readChunks d pos width shift acc =
      if piece < Nat.pow 2 (width - 1)
      then (p, .ok (acc + piece % Nat.pow 2 (width - 1) * Nat.pow 2 shift))
      else if 64 < shift + (width - 1) then (p, .error ⟨.overflow, p / 8⟩)
      else if 0 < width then
        readChunks d p width (shift + (width - 1))
          (acc + piece % Nat.pow 2 (width - 1) * Nat.pow 2 shift)
      else (p, .ok (acc + piece % Nat.pow 2 (width - 1) * Nat.pow 2 shift)) := by
  rw [readChunks]
  split <;> next h' =>
    rw [h] at h'
    cases h' <;> rfl

theorem readChunks_append (pos width shift acc : Nat) :
    readChunks (u ++ d) (8 * u.length + pos) width shift acc =
      (8 * u.length + (readChunks d pos width shift acc).1,
        (readChunks d pos width shift acc).2.mapError (StreamFault.moved u.length)) := by
  have hbyte (p : Nat) : (8 * u.length + p) / 8 = u.length + p / 8 := by omega
  have hread (pos : Nat) := readBits_append (u := u) (d := d) pos width
  fun_induction readChunks d pos width shift acc with
  | case1 pos shift acc e h =>
    rw [readChunks_of_error (by rw [hread, h]; rfl)]
    rfl
  | case2 pos shift acc piece p h _ hlast =>
    rw [readChunks_of_ok (by rw [hread, h]; rfl), if_pos hlast]
    rfl
  | case3 pos shift acc piece p h hlast hover =>
    rw [readChunks_of_ok (by rw [hread, h]; rfl), if_neg hlast, if_pos hover, hbyte]
    rfl
  | case4 pos shift acc piece p h _ hlast hover hw ih =>
    rw [readChunks_of_ok (by rw [hread, h]; rfl), if_neg hlast, if_neg hover, if_pos hw]
    exact ih
  | case5 pos shift acc piece p h _ hlast hover hw =>
    rw [readChunks_of_ok (by rw [hread, h]; rfl), if_neg hlast, if_neg hover, if_neg hw]
    rfl

/-! ## Blocks -/

theorem align32_add {k : Nat} (hk : 4 ∣ k) (pos : Nat) :
    align32 (8 * k + pos) = 8 * k + align32 pos := by
  unfold align32
  omega

theorem isMarker_append (pos : Nat) : isMarker (u ++ d) (u.length + pos) = isMarker d pos := by
  rw [isMarker, isMarker, sub_append]

theorem endsAt_append (pos : Nat) : endsAt (u ++ d) (u.length + pos) = endsAt d pos := by
  have hlength : (u ++ d).length < u.length + pos + 4 ↔ d.length < pos + 4 := by
    rw [List.length_append]
    omega
  simp only [endsAt, isMarker_append, sub_append, hlength]

theorem blockHead_append (hu : 4 ∣ u.length) (pos : Nat) : blockHead (u ++ d) (u.length + pos) =
      ((blockHead d pos).map fun r => (r.1, r.2.1, u.length + r.2.2)).mapError
        (StreamFault.moved u.length) := by
  simp only [blockHead, readVbr, mul_add, readBits_append, bind, Except.bind, pure, Except.pure]
  cases readBits d (8 * pos) topWidth with
  | error e => rfl
  | ok r =>
    dsimp only [Except.map, Except.mapError]
    by_cases hk : r.1 ≠ enterBlock
    · rw [if_pos hk, if_pos hk]
      rfl
    · rw [if_neg hk, if_neg hk]
      simp only [readChunks_append, align32_add hu, readBits_append]
      cases (readChunks d r.2 8 0 0).2 with
      | error e => rfl
      | ok id =>
        cases (readChunks d (readChunks d r.2 8 0 0).1 4 0 0).2 with
        | error e => rfl
        | ok abbrevs =>
          cases readBits d (align32 (readChunks d (readChunks d r.2 8 0 0).1 4 0 0).1) 32 with
          | error e => rfl
          | ok q =>
            have hbyte : (8 * u.length + q.2) / 8 = u.length + q.2 / 8 := by omega
            simp only [Except.map, Except.mapError, hbyte]

theorem walkBlocks_of_end (h : endsAt d pos) : walkBlocks d pos = .ok (pos, []) := by
  rw [walkBlocks, if_pos h]

theorem walkBlocks_of_error {f : StreamFault} (he : endsAt d pos = false)
    (h : blockHead d pos = .error f) : walkBlocks d pos = .error f := by
  rw [walkBlocks, if_neg (by simp [he])]
  split <;> next h' =>
    rw [h] at h'
    cases h' <;> rfl

theorem walkBlocks_of_head {id words body : Nat} (he : endsAt d pos = false)
    (h : blockHead d pos = .ok (id, words, body)) :
    walkBlocks d pos =
      if d.length < body + 4 * words then .error ⟨.blockTooLong id words, pos⟩
      else (walkBlocks d (body + 4 * words)).map fun r => (r.1, id :: r.2) := by
  rw [walkBlocks, if_neg (by simp [he])]
  split
  · next h' =>
    rw [h] at h'
    cases h'
  · next h' =>
    rw [h] at h'
    cases h'
    split
    · rfl
    · split <;> next hw => rw [hw]; rfl

theorem walkBlocks_append (hu : 4 ∣ u.length) (pos : Nat) : walkBlocks (u ++ d) (u.length + pos) =
      ((walkBlocks d pos).map fun r => (u.length + r.1, r.2)).mapError
        (StreamFault.moved u.length) := by
  have hlength (n : Nat) : (u ++ d).length < u.length + n ↔ d.length < n := by
    rw [List.length_append]
    omega
  fun_induction walkBlocks d pos with
  | case1 pos he =>
    rw [walkBlocks_of_end (by rw [endsAt_append, he])]
    rfl
  | case2 pos he f hb =>
    rw [walkBlocks_of_error (by rw [endsAt_append]; simpa using he)
      (by rw [blockHead_append hu, hb]; rfl)]
    rfl
  | case3 pos he id words body hb hl =>
    rw [walkBlocks_of_head (by rw [endsAt_append]; simpa using he)
      (by rw [blockHead_append hu, hb]; rfl), add_assoc, if_pos ((hlength _).2 hl)]
    rfl
  | case4 pos he id words body hb hl f hw ih =>
    rw [walkBlocks_of_head (by rw [endsAt_append]; simpa using he)
      (by rw [blockHead_append hu, hb]; rfl), add_assoc, if_neg (mt (hlength _).1 hl), ih, hw]
    rfl
  | case5 pos he id words body hb hl last ids hw ih =>
    rw [walkBlocks_of_head (by rw [endsAt_append]; simpa using he)
      (by rw [blockHead_append hu, hb]; rfl), add_assoc, if_neg (mt (hlength _).1 hl), ih, hw]
    rfl

/-! ## Modules -/

theorem walk_append (hu : 4 ∣ u.length) (depth start : Nat) :
    walk depth (u ++ d) (u.length + start) =
      ((walk depth d start).map (Extent.moved u.length)).mapError (WalkError.moved u.length) := by
  induction depth generalizing d start with
  | zero =>
    unfold walk
    rw [sub_append, wrapperRange_moved, add_assoc, walkBlocks_append hu]
    split
    · cases wrapperRange d start <;> rfl
    · split
      · cases walkBlocks d (start + 4) <;> rfl
      · rfl
  | succ depth ih =>
    unfold walk
    rw [sub_append, wrapperRange_moved, add_assoc, walkBlocks_append hu]
    split
    · cases wrapperRange d start with
      | error f => rfl
      | ok r =>
        dsimp only [Except.map, Except.mapError]
        rw [List.take_length_add_append, ih]
        cases walk depth (d.take r.2) r.1 <;> rfl
    · split
      · cases walkBlocks d (start + 4) <;> rfl
      · rfl

/-! ## The division -/

theorem skipZeros_append (pos : Nat) :
    skipZeros (u ++ d) (u.length + pos) = u.length + skipZeros d pos := by
  rw [skipZeros, skipZeros, List.drop_length_add_append, add_assoc]

theorem structureComplaint_moved (k : Nat) (b : Buffer) :
    (∃ e, structureComplaint depth b = .error e ∧ structureComplaint depth (b.moved k) = .error e ∧
      e = .tooDeep) ∨
      (structureComplaint depth b = .ok none ∧ structureComplaint depth (b.moved k) = .ok none) ∨
      ∃ reason o o', structureComplaint depth b = .ok (some ⟨reason, o⟩) ∧
        structureComplaint depth (b.moved k) = .ok (some ⟨reason, o'⟩) := by
  have hd : (b.moved k).data = b.data := rfl
  unfold structureComplaint
  rw [hd]
  cases walk depth b.data 0 with
  | error e =>
    cases e with
    | malformed f => exact .inr (.inr ⟨_, _, _, rfl, rfl⟩)
    | tooDeep => exact .inl ⟨_, rfl, rfl, rfl⟩
  | ok extent =>
    dsimp only
    split
    · exact .inr (.inr ⟨_, _, _, rfl, rfl⟩)
    · split
      · exact .inr (.inr ⟨_, _, _, rfl, rfl⟩)
      · exact .inr (.inl ⟨rfl, rfl⟩)

theorem nextBuffer_append (hu : 4 ∣ u.length) (origin : String) (index pos : Nat) :
    nextBuffer depth bitstreamValidator origin (u ++ d) index (u.length + pos) =
      ((nextBuffer depth bitstreamValidator origin d index pos).map fun r =>
        (r.1.moved u.length, u.length + r.2)).mapError
          (failureMoved u.length) := by
  unfold nextBuffer
  dsimp only
  rw [isMarker_append, walk_append hu]
  split
  · rfl
  · cases walk depth d pos with
    | error e => cases e <;> rfl
    | ok e =>
      have hsize : u.length + e.stop - (u.length + e.start) = e.stop - e.start := by omega
      dsimp only [Except.map, Except.mapError, Extent.moved, bitstreamValidator]
      rw [hsize, sub_append]
      obtain ⟨_, h, h', rfl⟩ | ⟨h, h'⟩ | ⟨reason, o, o', h, h'⟩ :=
        structureComplaint_moved u.length ⟨d.sub e.start (e.stop - e.start), origin, index, e.start⟩
      all_goals
        rw [Buffer.moved] at h'
        rw [h, h']
        rfl

theorem splitFrom_append (hu : 4 ∣ u.length) (origin : String) (index pos : Nat) :
    splitFrom depth bitstreamValidator origin (u ++ d) index (u.length + pos) =
      divisionMoved u.length (splitFrom depth bitstreamValidator origin d index pos) := by
  have hlength (n : Nat) : (u ++ d).length ≤ u.length + n ↔ d.length ≤ n := by
    rw [List.length_append]
    omega
  have hnext (index pos : Nat) := @nextBuffer_append depth u d hu origin index pos
  fun_induction splitFrom depth bitstreamValidator origin d index pos with
  | case1 index pos hl =>
    rw [splitFrom_of_end (by rw [skipZeros_append, hlength]; exact hl)]
    rfl
  | case2 index pos hl e h =>
    rw [splitFrom_of_error (by rw [skipZeros_append, hlength]; exact hl)
      (by rw [skipZeros_append, hnext, h]; rfl)]
    rfl
  | case3 index pos hl b stop h rest ih =>
    rw [splitFrom_of_ok (by rw [skipZeros_append, hlength]; exact hl)
      (by rw [skipZeros_append, hnext, h]; rfl), ih]
    rfl

end CallAtlas.Bitcode
