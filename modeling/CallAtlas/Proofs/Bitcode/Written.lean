import CallAtlas.Proofs.Bitcode.Position

/-!
# Reading what was written

The bytes of a string are the digits of one number, so a bit field is a part of that number:
`bitsAt_eq`. What the writer of blocks puts behind whole words is `blockBytes`, a head of one word,
the count of words and the body: `bytes_writeBlock`. The reader finds its way over it, whatever
follows: `walkBlocks_block`. A module built from a tag ends where it was written to end, if what
follows cannot be taken for a block: `walk_encodeModule`.
-/

namespace CallAtlas.Bitcode

open List Bytes

/-! ## Byte strings as numbers -/

theorem littleEndian_lt (a : Bytes) : littleEndian a < 256 ^ a.length := by
  induction a with
  | nil => simp [littleEndian]
  | cons b r ih =>
    have hb := b.toNat_lt
    rw [littleEndian, length_cons]
    omega

theorem littleEndian_append (a b : Bytes) :
    littleEndian (a ++ b) = littleEndian a + 256 ^ a.length * littleEndian b := by
  induction a with
  | nil => simp [littleEndian]
  | cons x r ih =>
    rw [cons_append, littleEndian, littleEndian, ih, length_cons]
    ring

theorem littleEndian_drop (data : Bytes) (n : Nat) :
    littleEndian (data.drop n) = littleEndian data / 256 ^ n := by
  induction n generalizing data with
  | zero => simp
  | succ n ih =>
    cases data with
    | nil => simp [littleEndian]
    | cons b r =>
      have hb := b.toNat_lt
      have hdigit : littleEndian (b :: r) / 256 = littleEndian r := by
        rw [littleEndian]
        omega
      rw [drop_succ_cons, ih, pow_succ, mul_comm, ← Nat.div_div_eq_div_mul, hdigit]

theorem littleEndian_take (data : Bytes) (n : Nat) :
    littleEndian (data.take n) = littleEndian data % 256 ^ n := by
  have hlt : littleEndian (data.take n) < 256 ^ n :=
    (littleEndian_lt _).trans_le (Nat.pow_le_pow_right (by decide) (length_take_le ..))
  rcases le_total data.length n with h | h
  · rw [take_of_length_le h] at hlt ⊢
    exact (Nat.mod_eq_of_lt hlt).symm
  · have hsum := littleEndian_append (data.take n) (data.drop n)
    rw [take_append_drop, length_take_of_le h] at hsum
    rw [hsum, Nat.add_mul_mod_self_left, Nat.mod_eq_of_lt hlt]

theorem bitsAt_eq (data : Bytes) (pos width : Nat) :
    bitsAt data pos width = littleEndian data / 2 ^ pos % 2 ^ width := by
  have hpow (n : Nat) : 256 ^ n = 2 ^ (8 * n) := by rw [Nat.pow_mul]
  have hpos : 2 ^ (8 * (pos / 8)) * 2 ^ (pos % 8) = 2 ^ pos := by
    rw [← pow_add, Nat.div_add_mod]
  have hcut : 2 ^ (8 * ((pos % 8 + width + 7) / 8)) = 2 ^ (pos % 8) * 2 ^ width *
      2 ^ (8 * ((pos % 8 + width + 7) / 8) - (pos % 8 + width)) := by
    rw [← pow_add, ← pow_add]
    congr 1
    omega
  show littleEndian ((data.drop (pos / 8)).take ((pos % 8 + width + 7) / 8)) / 2 ^ (pos % 8) %
      2 ^ width = _
  rw [littleEndian_take, littleEndian_drop, hpow, hpow, ← hpos, ← Nat.div_div_eq_div_mul, hcut,
    mul_assoc, Nat.mod_mul_right_div_self, Nat.mod_mul_right_mod]

theorem ofNat_append (m n v x : Nat) (hv : v < 256 ^ m) :
    ofNat (m + n) (v + 256 ^ m * x) = ofNat m v ++ ofNat n x := by
  induction m generalizing v with
  | zero =>
    rw [pow_zero, Nat.zero_add, Nat.one_mul, Nat.lt_one_iff.1 hv, zero_add, ofNat, nil_append]
  | succ m ih =>
    have hdiv : (v + 256 ^ (m + 1) * x) / 256 = v / 256 + 256 ^ m * x := by
      rw [pow_succ, mul_right_comm, Nat.mul_comm _ 256, Nat.add_mul_div_left _ _ (by decide)]
    have hbyte : UInt8.ofNat (v + 256 ^ (m + 1) * x) = UInt8.ofNat v := by
      apply UInt8.toNat_inj.1
      rw [Nat.pow_succ, mul_right_comm, mul_comm _ 256]
      exact Nat.add_mul_mod_self_left ..
    rw [add_right_comm, ofNat, ofNat, hdiv, hbyte,
      ih _ (Nat.div_lt_of_lt_mul (by rwa [pow_succ, mul_comm] at hv)), cons_append]

theorem ofNat_mod (width n : Nat) : ofNat width (n % 256 ^ width) = ofNat width n := by
  have h := ofNat_append width 0 (n % 256 ^ width) (n / 256 ^ width) (Nat.mod_lt _ (by positivity))
  rw [Nat.mod_add_div, ofNat.eq_1, append_nil] at h
  exact h.symm

/-! ## What the writer writes -/

namespace BitWriter

variable {w : BitWriter}

structure Worded (w : BitWriter) : Prop where
  fits : w.value < 2 ^ w.bits
  words : 32 ∣ w.bits

theorem write_fits (h : w.value < 2 ^ w.bits) (v width : Nat) :
    (w.write v width).value < 2 ^ (w.write v width).bits := by
  have hv : v % 2 ^ width + 1 ≤ 2 ^ width := Nat.mod_lt _ (by positivity)
  calc (w.write v width).value = w.value + v % 2 ^ width * 2 ^ w.bits := rfl
    _ < 2 ^ w.bits + v % 2 ^ width * 2 ^ w.bits := Nat.add_lt_add_right h _
    _ = (v % 2 ^ width + 1) * 2 ^ w.bits := by ring
    _ ≤ 2 ^ width * 2 ^ w.bits := Nat.mul_le_mul_right _ hv
    _ = 2 ^ (w.bits + width) := by rw [← pow_add, add_comm]

theorem bytes_write (h : w.value < 2 ^ w.bits) (hb : 8 ∣ w.bits) (v k : Nat) :
    (w.write v (8 * k)).bytes = w.bytes ++ ofNat k v := by
  obtain ⟨n, hn⟩ := hb
  have hpow (n : Nat) : 2 ^ (8 * n) = 256 ^ n := by rw [Nat.pow_mul]
  have hlen : (w.bits + 8 * k + 7) / 8 = n + k := by omega
  have hlen' : (w.bits + 7) / 8 = n := by omega
  rw [hn, hpow] at h
  show ofNat ((w.bits + 8 * k + 7) / 8) (w.value + v % 2 ^ (8 * k) * 2 ^ w.bits) =
    ofNat ((w.bits + 7) / 8) w.value ++ ofNat k v
  rw [hlen, hlen', hn, hpow, hpow, mul_comm, ofNat_append _ _ _ _ h, ofNat_mod]

theorem writeBytes_cons (b : UInt8) (data : Bytes) :
    w.writeBytes (b :: data) = (w.write b.toNat 8).writeBytes data := rfl

theorem bytes_writeBytes (h : w.value < 2 ^ w.bits) (hb : 8 ∣ w.bits) (data : Bytes) :
    (w.writeBytes data).bytes = w.bytes ++ data ∧
      (w.writeBytes data).bits = w.bits + 8 * data.length ∧
      (w.writeBytes data).value < 2 ^ (w.writeBytes data).bits := by
  induction data generalizing w with
  | nil => exact ⟨(append_nil _).symm, rfl, h⟩
  | cons b data ih =>
    have hbits : (w.write b.toNat 8).bits = w.bits + 8 := rfl
    obtain ⟨h1, h2, h3⟩ := ih (write_fits h b.toNat 8) (by omega)
    have hbyte : ofNat 1 b.toNat = [b] := by simp [ofNat]
    refine ⟨?_, ?_, h3⟩
    · rw [writeBytes_cons, h1, bytes_write h hb b.toNat 1, hbyte, append_assoc, singleton_append]
    · rw [writeBytes_cons, length_cons]
      omega

theorem writeVbr_of_lt {v width : Nat} (h : v < 2 ^ (width - 1)) :
    w.writeVbr v width = w.write v width := by
  cases v with
  | zero => rfl
  | succ v =>
    exact if_pos h

end BitWriter

/-! ## Blocks -/

/-- The word that a block of a number starts with: the abbreviation number that opens it, its number
and the width of the abbreviation numbers inside. -/
def headWord (id : Nat) : Nat := enterBlock + 4 * id + 1024 * 3

/-- The body of a block: its payload, filled up to whole words, and a closing word. -/
def blockBody (payload : Bytes) : Bytes := payload ++ zeros (padding payload.length 4) ++ zeros 4

def blockBytes (id : Nat) (payload : Bytes) : Bytes :=
  ofNat 4 (headWord id) ++ ofNat 4 ((blockBody payload).length / 4) ++ blockBody payload

theorem four_dvd_length_blockBody (payload : Bytes) : 4 ∣ (blockBody payload).length := by
  simp only [blockBody, zeros, padding, length_append, length_replicate]
  omega

theorem length_blockBytes (id : Nat) (payload : Bytes) :
    (blockBytes id payload).length = 8 + (blockBody payload).length := by
  simp only [blockBytes, length_append, length_ofNat]

theorem four_dvd_length_blockBytes (id : Nat) (payload : Bytes) :
    4 ∣ (blockBytes id payload).length := by
  rw [length_blockBytes]
  exact dvd_add (by decide) (four_dvd_length_blockBody payload)

theorem writeHead_eq {w : BitWriter} (hw : 32 ∣ w.bits) {id : Nat} (hid : id < 128) :
    (((w.write enterBlock topWidth).writeVbr id 8).writeVbr 3 4).align32 =
      w.write (headWord id) 32 := by
  rw [BitWriter.writeVbr_of_lt (show id < 2 ^ (8 - 1) from hid)]
  have hbits : (w.bits + 2 + 8 + 4 + 31) / 32 * 32 = w.bits + 32 := by omega
  have hid' : id % 2 ^ 8 = id := Nat.mod_eq_of_lt (by omega)
  have hhead : headWord id % 2 ^ 32 = headWord id :=
    Nat.mod_eq_of_lt (by unfold headWord enterBlock; omega)
  have hvalue : w.value + 1 % 2 ^ 2 * 2 ^ w.bits + id % 2 ^ 8 * 2 ^ (w.bits + 2) + 3 % 2 ^ 4 *
      2 ^ (w.bits + 2 + 8) =
      w.value + headWord id % 2 ^ 32 * 2 ^ w.bits := by
    rw [hid', hhead, headWord, enterBlock]
    ring
  exact congrArg₂ BitWriter.mk hvalue hbits

theorem bytes_writeBlock {w : BitWriter} (h : w.Worded) {id : Nat} (hid : id < 128)
    (payload : Bytes) :
    (writeBlock w id payload).bytes = w.bytes ++ blockBytes id payload ∧
    (writeBlock w id payload).Worded := by
  have hbytes : 8 ∣ w.bits := Dvd.dvd.trans (by decide) h.words
  have hhead := BitWriter.write_fits h.fits (headWord id) 32
  have hcount := BitWriter.write_fits hhead ((blockBody payload).length / 4) 32
  have hb1 : (w.write (headWord id) 32).bits = w.bits + 32 := rfl
  have hb2 : ((w.write (headWord id) 32).write ((blockBody payload).length / 4) 32).bits = w.bits +
      64 := rfl
  have hbody := four_dvd_length_blockBody payload
  have hwords := h.words
  have heq : writeBlock w id payload =
      ((w.write (headWord id) 32).write ((blockBody payload).length / 4) 32).writeBytes
      (blockBody payload) := by
    rw [← writeHead_eq h.words hid]
    rfl
  obtain ⟨h1, h2, h3⟩ := BitWriter.bytes_writeBytes hcount (by omega) (blockBody payload)
  rw [heq]
  refine ⟨?_, h3, ?_⟩
  · rw [h1, BitWriter.bytes_write hhead (by omega) _ 4, BitWriter.bytes_write h.fits hbytes _ 4,
      blockBytes]
    simp only [append_assoc]
  · omega

/-- The bytes of a module with a tag in its blocks. -/
theorem encodeModule_eq (tag : Bytes) :
    encodeModule tag true =
      magic ++ (blockBytes identificationBlock (ofAscii "LLVM" ++ tag) ++
        blockBytes moduleBlock ([1, 2, 3, 4] ++ tag)) := by
  have hmagic : BitWriter.Worded (BitWriter.writeBytes {} magic) := ⟨by decide, by decide⟩
  obtain ⟨h1, hw⟩ :=
    bytes_writeBlock hmagic (show identificationBlock < 128 by decide) (ofAscii "LLVM" ++ tag)
  obtain ⟨h2, -⟩ := bytes_writeBlock hw (show moduleBlock < 128 by decide) ([1, 2, 3, 4] ++ tag)
  rw [h1] at h2
  exact h2

/-! ## Reading blocks -/

theorem readBits_eq {data : Bytes} {pos width : Nat} (hw : 0 < width)
    (hl : pos + width ≤ 8 * data.length) :
    readBits data pos width = .ok (littleEndian data / 2 ^ pos % 2 ^ width, pos + width) := by
  rw [readBits, if_neg (by omega), if_neg (by omega), bitsAt_eq]

variable {id : Nat} {payload : Bytes}

theorem sub_block (rest : Bytes) :
    (blockBytes id payload ++ rest).sub 0 4 = ofNat 4 (headWord id) := rfl

theorem blockHead_block (hid : id < 128) (hl : (blockBody payload).length / 4 < 2 ^ 32)
    (rest : Bytes) :
    blockHead (blockBytes id payload ++ rest) 0 = .ok (id, (blockBody payload).length / 4, 8) := by
  have hhead : headWord id < 256 ^ 4 := by
    unfold headWord enterBlock
    omega
  have hlength : 64 ≤ 8 * (blockBytes id payload ++ rest).length := by
    rw [length_append, length_blockBytes]
    omega
  obtain ⟨x, hx⟩ : ∃ x, littleEndian (blockBytes id payload ++ rest) =
      headWord id + 256 ^ 4 * ((blockBody payload).length / 4 + 256 ^ 4 * x) := by
    refine ⟨littleEndian (blockBody payload ++ rest), ?_⟩
    rw [blockBytes, append_assoc, append_assoc, littleEndian_append, littleEndian_append,
      length_ofNat, length_ofNat, littleEndian_ofNat hhead, littleEndian_ofNat hl]
  generalize (blockBody payload).length / 4 = words at hl hx ⊢
  generalize blockBytes id payload ++ rest = data at hlength hx ⊢
  have hread {pos width : Nat} (hw : 0 < width) (hp : pos + width ≤ 64) :=
    readBits_eq hw (show pos + width ≤ 8 * data.length from hp.trans hlength)
  rw [hx] at hread
  unfold headWord enterBlock at hread
  have hkind : readBits data 0 2 = .ok (enterBlock, 2) := by
    rw [hread (by decide) (by decide)]
    congr 2
    unfold enterBlock
    omega
  have hnumber : readBits data 2 8 = .ok (id, 10) := by
    rw [hread (by decide) (by decide)]
    congr 2
    omega
  have habbrevs : readBits data 10 4 = .ok (3, 14) := by
    rw [hread (by decide) (by decide)]
    congr 2
    omega
  have hcount : readBits data 32 32 = .ok (words, 64) := by
    rw [hread (by decide) (by decide)]
    congr 2
    omega
  have hvbr : readChunks data 2 8 0 0 = (10, .ok id) := by
    rw [readChunks_of_ok hnumber, if_pos (show id < Nat.pow 2 (8 - 1) from hid)]
    congr 2
    show 0 + id % 2 ^ 7 * 2 ^ 0 = id
    omega
  have hvbr' : readChunks data 10 4 0 0 = (14, .ok 3) := readChunks_of_ok habbrevs
  simp only [blockHead, readVbr, bind, Except.bind, pure, Except.pure, topWidth, hkind, hvbr, hvbr']
  rw [if_neg (by simp), show align32 14 = 32 from rfl, hcount]
  dsimp only

theorem endsAt_block (hid : id < 128) (rest : Bytes) :
    endsAt (blockBytes id payload ++ rest) 0 = false := by
  have hhead : littleEndian (ofNat 4 (headWord id)) = headWord id :=
    littleEndian_ofNat (by unfold headWord enterBlock; omega)
  have hlength : ¬ (blockBytes id payload ++ rest).length < 0 + 4 := by
    rw [length_append, length_blockBytes]
    omega
  -- The two low bits of the first word open a block; a zero word and the markers have others there.
  have hne {m : Bytes} (hm : littleEndian m % 4 ≠ 1) : ofNat 4 (headWord id) ≠ m := by
    rintro rfl
    rw [hhead] at hm
    unfold headWord enterBlock at hm
    omega
  simp only [endsAt, isMarker, sub_block, hlength, hne (m := [0, 0, 0, 0]) (by decide),
    hne (m := magic) (by decide), hne (m := wrapperMagic) (by decide), decide_false, Bool.or_false]

theorem walkBlocks_block (hid : id < 128) (hl : (blockBody payload).length / 4 < 2 ^ 32)
    (rest : Bytes) :
    walkBlocks (blockBytes id payload ++ rest) 0 =
      ((walkBlocks rest 0).map fun r => ((blockBytes id payload).length + r.1, id :: r.2)).mapError
        (StreamFault.moved (blockBytes id payload).length) := by
  have hstop : 8 + 4 * ((blockBody payload).length / 4) = (blockBytes id payload).length := by
    have := four_dvd_length_blockBody payload
    rw [length_blockBytes]
    omega
  rw [walkBlocks_of_head (endsAt_block hid rest) (blockHead_block hid hl rest), hstop,
    if_neg (by rw [length_append]; omega)]
  have hmoved := walkBlocks_append (d := rest) (four_dvd_length_blockBytes id payload) 0
  rw [add_zero] at hmoved
  rw [hmoved]
  cases walkBlocks rest 0 <;> rfl

theorem walk_encodeModule {tag rest : Bytes} (hl : (encodeModule tag true).length < 2 ^ 32)
    (hend : endsAt rest 0) (depth : Nat) :
    walk depth (encodeModule tag true ++ rest) 0 =
      .ok ⟨0, (encodeModule tag true).length, [identificationBlock, moduleBlock], false⟩ := by
  rw [encodeModule_eq] at hl ⊢
  have hmarker : ∀ x : Bytes, (magic ++ x).sub 0 4 = magic := fun x => rfl
  have hsizes := hl
  simp only [length_append, length_blockBytes] at hsizes
  unfold walk
  rw [append_assoc, hmarker, if_neg (by decide), if_pos rfl]
  have hmoved := walkBlocks_append (u := magic) (by decide) (d := blockBytes identificationBlock
    (ofAscii "LLVM" ++ tag) ++ blockBytes moduleBlock ([1, 2, 3, 4] ++ tag) ++ rest) 0
  rw [append_assoc, walkBlocks_block (by decide) (by omega),
    walkBlocks_block (by decide) (by omega), walkBlocks_of_end hend] at hmoved
  rw [append_assoc, show 0 + 4 = magic.length + 0 from rfl, hmoved]
  simp only [Except.map, Except.mapError, length_append, add_zero]

end CallAtlas.Bitcode
