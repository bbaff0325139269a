import CallAtlas.Bytes

/-!
# Reading bits

Bit fields of a byte string, low bit first; positions count bits.
-/

namespace CallAtlas.Bitcode

inductive StreamError where
  | truncated
  | overflow
  | missingMagic
  | unexpectedAbbrev (id : Nat)
  | blockTooLong (id words : Nat)
  | truncatedWrapper
  | wrapperOutside (offset size : Nat)
  deriving DecidableEq, Repr

def StreamError.message : StreamError → String
  | .truncated => "truncated bitstream"
  | .overflow => "VBR value overflows 64 bits"
  | .missingMagic => "missing bitcode magic"
  | .unexpectedAbbrev id => "unexpected abbrev id " ++ toString id ++ " at top level"
  | .blockTooLong id words =>
    "block " ++ toString id ++ " claims " ++ toString words ++ " words but the buffer ends first"
  | .truncatedWrapper => "truncated bitcode wrapper header"
  | .wrapperOutside offset size =>
    "bitcode wrapper points outside the buffer (offset=" ++ toString offset ++ ", size=" ++
      toString size ++ ")"

/-- An error and the byte where it was met. -/
structure StreamFault where
  error : StreamError
  offset : Nat
  deriving DecidableEq, Repr

def bitsAt (data : Bytes) (pos width : Nat) : Nat :=
  Bytes.littleEndian (data.sub (pos / 8) ((pos % 8 + width + 7) / 8)) / Nat.pow 2 (pos % 8) %
    Nat.pow 2 width

def readBits (data : Bytes) (pos width : Nat) : Except StreamFault (Nat × Nat) :=
  if width = 0 then .ok (0, pos)
  else if 8 * data.length < pos + width then .error ⟨.truncated, pos / 8⟩
  else .ok (bitsAt data pos width, pos + width)

theorem readBits_pos {data : Bytes} {pos width v p : Nat}
    (h : readBits data pos width = .ok (v, p)) :
    p = pos + width := by
  unfold readBits at h
  split at h
  · simp_all
  · split at h
    · simp at h
    · simp at h; omega

theorem readBits_le {data : Bytes} {pos width v p : Nat} (hw : 0 < width)
    (h : readBits data pos width = .ok (v, p)) : p ≤ 8 * data.length := by
  unfold readBits at h
  split at h
  · omega
  · split at h
    · simp at h
    · simp at h; omega

/-- Reads the chunks of a variable-width value from the chunk at `shift` on: the position behind
what was consumed, and the value. The low bits of a chunk are digits, its high bit says that more
follow. -/
def readChunks (data : Bytes) (pos width shift acc : Nat) : Nat × Except StreamFault Nat :=
  match _h : readBits data pos width with
  | .error e => (pos, .error e)
  | .ok (piece, p) =>
    let acc := acc + piece % Nat.pow 2 (width - 1) * Nat.pow 2 shift
    if piece < Nat.pow 2 (width - 1) then (p, .ok acc)
    else if 64 < shift + (width - 1) then (p, .error ⟨.overflow, p / 8⟩)
    else if _hw : 0 < width then readChunks data p width (shift + (width - 1)) acc
    else (p, .ok acc)
termination_by 8 * data.length - pos
decreasing_by
  have h₁ := readBits_pos _h
  have h₂ := readBits_le _hw _h
  omega

theorem le_readChunks (data : Bytes) (pos width shift acc : Nat) :
    pos ≤ (readChunks data pos width shift acc).1 := by
  fun_induction readChunks data pos width shift acc with
  | case1 => exact Nat.le_refl _
  | case2 pos shift acc piece p h => have := readBits_pos h; show pos ≤ p; omega
  | case3 pos shift acc piece p h => have := readBits_pos h; show pos ≤ p; omega
  | case4 pos shift acc piece p h _ _ _ _ ih => have := readBits_pos h; omega
  | case5 pos shift acc piece p h => have := readBits_pos h; show pos ≤ p; omega

def readVbr (data : Bytes) (pos width : Nat) : Nat × Except StreamFault Nat :=
  readChunks data pos width 0 0

def align32 (pos : Nat) : Nat := (pos + 31) / 32 * 32

theorem le_align32 (pos : Nat) : pos ≤ align32 pos := by
  unfold align32
  omega

end CallAtlas.Bitcode
