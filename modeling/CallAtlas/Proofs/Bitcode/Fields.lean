import CallAtlas.Proofs.Bitcode.Written

/-!
# Fields are read back

A sequence of fields is written bit behind bit, and a reader that is told the shape of each field
finds them again. What a writer has written stays in front of what it writes later: `Extends`. A
field is therefore read from the bytes of any later writer, at the bit where it was written
(`read_write`), and all fields of a sequence are read one after the other, each with the writer's
count of bits behind it: `fields_read_back`.
-/

namespace CallAtlas.Bitcode

variable {w : BitWriter}

inductive Field where
  | fixed (value : Int) (width : Nat)
  | chunked (value width : Nat)
  | boundary
  deriving DecidableEq, Repr

inductive Shape where
  | fixed (width : Nat)
  | chunked (width : Nat)
  | boundary
  deriving DecidableEq, Repr

namespace Field

def write (w : BitWriter) : Field → BitWriter
  | .fixed value width => w.writeInt value width
  | .chunked value width => w.writeVbr value width
  | .boundary => w.align32

def shape : Field → Shape
  | .fixed _ width => .fixed width
  | .chunked _ width => .chunked width
  | .boundary => .boundary

def number : Field → Option Nat
  | .fixed value width => some (value % 2 ^ width).toNat
  | .chunked value _ => some value
  | .boundary => none

/-- A number in chunks has 64 bits at most, and a chunk has room for more than its continuation
bit. -/
def Legal : Field → Prop
  | .chunked value width => 2 ≤ width ∧ value < 2 ^ 64
  | _ => True

instance : DecidablePred Legal := fun f => by
  cases f <;> unfold Legal <;> infer_instance

end Field

def writeFields (w : BitWriter) (fields : List Field) : BitWriter := fields.foldl Field.write w

/-- Reads a field of a shape: its number, if it has one, and the position behind it. -/
def Shape.read (data : Bytes) (pos : Nat) : Shape → Except StreamFault (Option Nat × Nat)
  | .fixed width => (readBits data pos width).map fun r => (some r.1, r.2)
  | .chunked width => (readVbr data pos width).2.map fun v => (some v, (readVbr data pos width).1)
  | .boundary => .ok (none, align32 pos)

def readShapes (data : Bytes) : Nat → List Shape → Except StreamFault (List (Option Nat × Nat))
  | _, [] => .ok []
  | pos, s :: r => do
    let x ← s.read data pos
    let rest ← readShapes data x.2 r
    pure (x :: rest)

/-! ## Later writers -/

structure Extends (w later : BitWriter) : Prop where
  bits : w.bits ≤ later.bits
  value : later.value % 2 ^ w.bits = w.value

namespace Extends

variable {w w' w'' : BitWriter}

theorem refl (h : w.value < 2 ^ w.bits) : Extends w w := ⟨le_refl _, Nat.mod_eq_of_lt h⟩

theorem trans (h : Extends w w') (h' : Extends w' w'') : Extends w w'' := by
  refine ⟨h.bits.trans h'.bits, ?_⟩
  rw [← h.value, ← h'.value, Nat.mod_mod_of_dvd _ (pow_dvd_pow 2 h.bits)]

theorem write (h : w.value < 2 ^ w.bits) (v width : Nat) : Extends w (w.write v width) := by
  refine ⟨Nat.le_add_right _ _, ?_⟩
  show (w.value + v % 2 ^ width * 2 ^ w.bits) % 2 ^ w.bits = w.value
  rw [Nat.add_mul_mod_self_right, Nat.mod_eq_of_lt h]

end Extends

theorem align32_fits (h : w.value < 2 ^ w.bits) : w.align32.value < 2 ^ w.align32.bits :=
  h.trans_le (Nat.pow_le_pow_right (by decide) (le_align32 w.bits))

theorem littleEndian_bytes (h : w.value < 2 ^ w.bits) : Bytes.littleEndian w.bytes = w.value := by
  refine littleEndian_ofNat (h.trans_le ?_)
  rw [show 256 = 2 ^ 8 from rfl, ← pow_mul]
  exact Nat.pow_le_pow_right (by decide) (by omega)

/-- A field of fixed width is read from the bytes of every later writer. -/
theorem readBits_write {w later : BitWriter} {v width : Nat} (hw : w.value < 2 ^ w.bits)
    (h : Extends (w.write v width) later) (hl : later.value < 2 ^ later.bits) :
    readBits later.bytes w.bits width = .ok (v % 2 ^ width, w.bits + width) := by
  have hbits : w.bits + width ≤ later.bits := h.bits
  have hvalue : later.value % 2 ^ (w.bits + width) = w.value + v % 2 ^ width * 2 ^ w.bits := h.value
  cases width with
  | zero => rw [readBits, if_pos rfl, pow_zero, Nat.mod_one, add_zero]
  | succ n =>
    have hlength : later.bytes.length = (later.bits + 7) / 8 := length_ofNat ..
    rw [readBits_eq (Nat.succ_pos n) (by omega), littleEndian_bytes hl]
    congr 2
    calc later.value / 2 ^ w.bits % 2 ^ (n + 1)
        = later.value % 2 ^ (w.bits + (n + 1)) / 2 ^ w.bits := by
          rw [pow_add 2 w.bits, Nat.mod_mul_right_div_self]
      _ = v % 2 ^ (n + 1) := by
          rw [hvalue, Nat.add_mul_div_right _ _ (by positivity), Nat.div_eq_of_lt hw, zero_add]

/-! ## Numbers in chunks -/

theorem writeChunks_extends (fuel : Nat) (h : w.value < 2 ^ w.bits) (v width : Nat) :
    Extends w (w.writeChunks fuel v width) ∧
      (w.writeChunks fuel v width).value < 2 ^ (w.writeChunks fuel v width).bits := by
  induction fuel generalizing w v with
  | zero => exact ⟨.write h v width, BitWriter.write_fits h v width⟩
  | succ fuel ih =>
    rw [BitWriter.writeChunks]
    split
    · exact ⟨.write h v width, BitWriter.write_fits h v width⟩
    · obtain ⟨h1, h2⟩ :=
        ih (BitWriter.write_fits h (v % 2 ^ (width - 1) + 2 ^ (width - 1)) width)
          (v / 2 ^ (width - 1))
      exact ⟨(Extends.write h _ _).trans h1, h2⟩

/-- The chunks of a number are read from the bytes of every later writer. What counts against the
limit of the reader is a shift, and a chunk that is not the last is followed by a bit of the number
at that shift. -/
theorem readChunks_writeChunks {fuel v width : Nat} {w later : BitWriter}
    (hw : w.value < 2 ^ w.bits)
    (hwidth : 2 ≤ width) (hfuel : v ≤ fuel) (shift acc : Nat) (hv : v * 2 ^ shift < 2 ^ 64)
    (h : Extends (w.writeChunks fuel v width) later) (hl : later.value < 2 ^ later.bits) :
    readChunks later.bytes w.bits width shift acc = ((w.writeChunks fuel v width).bits,
      .ok (acc + v * 2 ^ shift)) := by
  have hpow : 2 ^ width = 2 * 2 ^ (width - 1) := by
    rw [← Nat.pow_succ', Nat.succ_eq_add_one, Nat.sub_add_cancel (by omega)]
  have hhigh : 2 ≤ 2 ^ (width - 1) := Nat.le_self_pow (by omega) 2
  -- a chunk below the continuation bit is the last one
  have hlast {w : BitWriter} {v shift acc : Nat} (hw : w.value < 2 ^ w.bits)
      (hv : v < 2 ^ (width - 1))
      (h : Extends (w.write v width) later) :
      readChunks later.bytes w.bits width shift acc =
      ((w.write v width).bits, .ok (acc + v * 2 ^ shift)) := by
    rw [readChunks_of_ok (readBits_write hw h hl), Nat.mod_eq_of_lt (show v < 2 ^ width by omega)]
    simp only [Nat.pow_eq]
    rw [if_pos hv, Nat.mod_eq_of_lt hv]
    rfl
  induction fuel generalizing w v shift acc with
  | zero => exact hlast hw (by omega) h
  | succ fuel ih =>
    rw [BitWriter.writeChunks] at h ⊢
    split at h
    · next hlow =>
      rw [if_pos hlow]
      exact hlast hw hlow h
    · next hlow =>
      have hlow' : 2 ^ (width - 1) ≤ v := not_lt.1 hlow
      rw [if_neg hlow]
      have hfits := BitWriter.write_fits hw (v % 2 ^ (width - 1) + 2 ^ (width - 1)) width
      have hread :=
        readBits_write hw ((writeChunks_extends fuel hfits (v / 2 ^ (width - 1)) width).1.trans h)
          hl
      rw [Nat.mod_eq_of_lt (show v % 2 ^ (width - 1) + 2 ^ (width - 1) < 2 ^ width by omega)]
        at hread
      have hshift : 2 ^ (shift + (width - 1)) < 2 ^ 64 := by
        rw [pow_add, mul_comm]
        exact (Nat.mul_le_mul_right _ hlow').trans_lt hv
      have hquotient : v / 2 ^ (width - 1) * 2 ^ (shift + (width - 1)) + v % 2 ^ (width - 1) *
          2 ^ shift = v * 2 ^ shift := by
        conv_rhs => rw [← Nat.div_add_mod v (2 ^ (width - 1))]
        ring
      have hsum : (v % 2 ^ (width - 1) + 2 ^ (width - 1)) % 2 ^ (width - 1) = v %
          2 ^ (width - 1) := by
        rw [Nat.add_mod_right, Nat.mod_mod]
      rw [readChunks_of_ok hread]
      simp only [Nat.pow_eq]
      rw [if_neg (by omega), if_neg (not_lt.2 ((Nat.pow_lt_pow_iff_right (by decide)).1 hshift).le),
        if_pos (by omega), hsum]
      have hstep := ih hfits (Nat.le_of_lt_succ ((Nat.div_lt_self (by omega) hhigh).trans_le hfuel))
        (shift + (width - 1)) (acc + v % 2 ^ (width - 1) * 2 ^ shift) (by omega) h
      refine hstep.trans ?_
      rw [add_assoc, add_comm (_ * 2 ^ shift), hquotient]

/-! ## Fields -/

theorem write_extends (h : w.value < 2 ^ w.bits) (f : Field) :
    Extends w (f.write w) ∧ (f.write w).value < 2 ^ (f.write w).bits := by
  cases f with
  | fixed value width => exact ⟨.write h _ width, BitWriter.write_fits h _ width⟩
  | chunked value width => exact writeChunks_extends value h value width
  | boundary => exact ⟨⟨le_align32 w.bits, Nat.mod_eq_of_lt h⟩, align32_fits h⟩

theorem writeFields_extends (h : w.value < 2 ^ w.bits) (fields : List Field) :
    Extends w (writeFields w fields) ∧
    (writeFields w fields).value < 2 ^ (writeFields w fields).bits := by
  induction fields generalizing w with
  | nil => exact ⟨.refl h, h⟩
  | cons f fields ih =>
    obtain ⟨h1, h2⟩ := write_extends h f
    obtain ⟨h3, h4⟩ := ih h2
    exact ⟨h1.trans h3, h4⟩

theorem read_write {w later : BitWriter} {f : Field} (hf : f.Legal) (hw : w.value < 2 ^ w.bits)
    (h : Extends (f.write w) later) (hl : later.value < 2 ^ later.bits) :
    f.shape.read later.bytes w.bits = .ok (f.number, (f.write w).bits) := by
  cases f with
  | fixed value width =>
    have hwrite := readBits_write hw h hl
    have hlt : (value % 2 ^ width).toNat < 2 ^ width := by
      zify
      omega
    show (readBits later.bytes w.bits width).map _ = _
    rw [hwrite, show Int.emod value (Nat.pow 2 width) = value % 2 ^ width by rfl,
      Nat.mod_eq_of_lt hlt]
    rfl
  | chunked value width =>
    obtain ⟨hwidth, hvalue⟩ := hf
    have hread : readVbr later.bytes w.bits width = ((w.writeVbr value width).bits,
        .ok (0 + value * 2 ^ 0)) :=
      readChunks_writeChunks hw hwidth (Nat.le_refl value) 0 0 (by omega) h hl
    show (readVbr later.bytes w.bits width).2.map _ = _
    rw [hread, pow_zero, mul_one, zero_add]
    rfl
  | boundary => rfl

theorem readShapes_write {fields : List Field} (hf : ∀ f ∈ fields, f.Legal)
    (hw : w.value < 2 ^ w.bits)
    {later : BitWriter} (h : Extends (writeFields w fields) later)
    (hl : later.value < 2 ^ later.bits) :
    readShapes later.bytes w.bits (fields.map Field.shape) =
      .ok ((fields.map Field.number).zip
        ((fields.scanl Field.write w).tail.map BitWriter.bits)) := by
  induction fields generalizing w with
  | nil => rfl
  | cons f fields ih =>
    obtain ⟨hf, hfields⟩ := List.forall_mem_cons.1 hf
    obtain ⟨-, hw'⟩ := write_extends hw f
    have hone := read_write hf hw ((writeFields_extends hw' fields).1.trans h) hl
    have hrest := ih hfields hw' h
    have hscan : fields.scanl Field.write (f.write w) = f.write w ::
        (fields.scanl Field.write (f.write w)).tail := by
      cases fields <;> simp
    rw [List.map_cons, readShapes, hone]
    show (readShapes later.bytes (f.write w).bits (fields.map Field.shape) >>= _) = _
    rw [hrest, List.scanl_cons, hscan]
    rfl

/-- Fields that were written one after the other are read back one after the other: nothing fails,
each gives its number, and behind each the reader stands where the writer stood. -/
theorem fields_read_back (fields : List Field) (hf : ∀ f ∈ fields, f.Legal) :
    readShapes (writeFields {} fields).bytes 0 (fields.map Field.shape) =
      .ok ((fields.map Field.number).zip
        ((fields.scanl Field.write {}).tail.map BitWriter.bits)) := by
  have hempty : ({} : BitWriter).value < 2 ^ ({} : BitWriter).bits := one_pos
  obtain ⟨-, hw⟩ := writeFields_extends hempty fields
  exact readShapes_write hf hempty (.refl hw) hw

/-- Fields of all shapes: a negative number, numbers of 64 bits in chunks of two and of seven bits,
no bits at all. -/
def sampleFields : List Field :=
  [.fixed (-3) 5, .chunked (2 ^ 64 - 1) 2, .fixed 300 8, .boundary, .chunked (2 ^ 63) 7, .fixed 9 0,
    .chunked 5 64, .boundary]

theorem sampleFields_read_back : (∀ f ∈ sampleFields, f.Legal) ∧
    readShapes (writeFields {} sampleFields).bytes 0 (sampleFields.map Field.shape) =
      .ok [(some 29, 5), (some 18446744073709551615, 133), (some 44, 141), (none, 160),
        (some 9223372036854775808, 237), (some 0, 237), (some 5, 301), (none, 320)] := by
  have hf : ∀ f ∈ sampleFields, f.Legal := by decide
  exact ⟨hf, (fields_read_back sampleFields hf).trans (by decide +kernel)⟩

end CallAtlas.Bitcode
