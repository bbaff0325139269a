import CallAtlas.Bytes

/-!
# Writing bits

Fields are put behind each other, low bit first. The bits so far are one number and their count.
-/

namespace CallAtlas.Bitcode

/-- The bits so far as a number, and how many. -/
structure BitWriter where
  value : Nat := 0
  bits : Nat := 0
  deriving DecidableEq, Repr

namespace BitWriter

def write (w : BitWriter) (value width : Nat) : BitWriter :=
  ⟨w.value + value % Nat.pow 2 width * Nat.pow 2 w.bits, w.bits + width⟩

/-- Writes the low `width` bits of a whole number; those of a negative one are those of its two's
complement. -/
def writeInt (w : BitWriter) (value : Int) (width : Nat) : BitWriter :=
  w.write (value.emod (Nat.pow 2 width)).toNat width

/-- Writes a number in chunks of `width` bits, each with a continuation bit on top. The count bounds
the number of chunks. -/
def writeChunks : Nat → BitWriter → Nat → Nat → BitWriter
  | 0, w, value, width => w.write value width
  | fuel + 1, w, value, width =>
    let high := Nat.pow 2 (width - 1)
    if value < high then w.write value width
    else writeChunks fuel (w.write (value % high + high) width) (value / high) width

def writeVbr (w : BitWriter) (value width : Nat) : BitWriter := writeChunks value w value width

def align32 (w : BitWriter) : BitWriter := { w with bits := (w.bits + 31) / 32 * 32 }

def writeBytes (w : BitWriter) (data : Bytes) : BitWriter :=
  data.foldl (fun w b => w.write b.toNat 8) w

def bytes (w : BitWriter) : Bytes := Bytes.ofNat ((w.bits + 7) / 8) w.value

end BitWriter

end CallAtlas.Bitcode
