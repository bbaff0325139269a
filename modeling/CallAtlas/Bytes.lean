import CallAtlas.Text.Digit

/-! # Byte strings -/

namespace CallAtlas

abbrev Bytes := List UInt8

namespace Bytes

def sub (data : Bytes) (start count : Nat) : Bytes := (data.drop start).take count

/-- The place that a position names in a string of length `n`: a negative one counts from the end,
and places outside move to the nearest end. -/
def clamp (n : Nat) (i : Int) : Nat := if i < 0 then (n + i).toNat else min n i.toNat

/-- The bytes from position `start` to before position `stop`, where negative positions count from
the end. -/
def slice (data : Bytes) (start stop : Int) : Bytes :=
  let a := clamp data.length start
  let b := clamp data.length stop
  (data.drop a).take (b - a)

def startsWith (data head : Bytes) : Bool := head.isPrefixOf data

def littleEndian : Bytes → Nat
  | [] => 0
  | b :: r => b.toNat + 256 * littleEndian r

def bigEndian (data : Bytes) : Nat := littleEndian data.reverse

/-- The `width` low bytes of a number, low byte first. -/
def ofNat : Nat → Nat → Bytes
  | 0, _ => []
  | width + 1, n => UInt8.ofNat n :: ofNat width (n / 256)

def zeros (n : Nat) : Bytes := List.replicate n 0

/-- How many bytes are missing from `n` to the next multiple of `unit`. -/
def padding (n unit : Nat) : Nat := (unit - n % unit) % unit

/-- The bytes of an ASCII text; other characters keep their low byte. -/
def ofAscii (s : String) : Bytes := s.toList.map fun c => UInt8.ofNat c.toNat

def ofText (s : String) : Bytes := s.toUTF8.toList

def toHex (data : Bytes) : String := String.ofList (data.flatMap fun b => Text.hexDigits 2 b.toNat)

end Bytes

end CallAtlas
