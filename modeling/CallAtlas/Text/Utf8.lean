import CallAtlas.Bytes

/-!
# Texts in bytes

UTF-8, read strictly or with a replacement character for each maximal ill-formed sequence.
-/

namespace CallAtlas.Text

def replacement : Char := '�'

/-- The range of the second byte and the number of continuation bytes behind a lead byte. -/
def leadByte? (b : Nat) : Option (Nat × Nat × Nat) :=
  if 0xC2 ≤ b ∧ b ≤ 0xDF then some (0x80, 0xBF, 1)
  else if b = 0xE0 then some (0xA0, 0xBF, 2)
  else if b = 0xED then some (0x80, 0x9F, 2)
  else if 0xE1 ≤ b ∧ b ≤ 0xEF then some (0x80, 0xBF, 2)
  else if b = 0xF0 then some (0x90, 0xBF, 3)
  else if 0xF1 ≤ b ∧ b ≤ 0xF3 then some (0x80, 0xBF, 3)
  else if b = 0xF4 then some (0x80, 0x8F, 3)
  else none

def continuations (low high : Nat) : Nat → Bytes → List Nat
  | 0, _ => []
  | _, [] => []
  | count + 1, b :: r =>
    if low ≤ b.toNat ∧ b.toNat ≤ high then b.toNat :: continuations 0x80 0xBF count r else []

/-- Reads one character: the character, or none for an ill-formed sequence, and how many bytes
follow the first one in it. -/
def readChar (b : UInt8) (r : Bytes) : Option Char × Nat :=
  let n := b.toNat
  if n < 0x80 then (some (Char.ofNat n), 0)
  else match leadByte? n with
    | none => (none, 0)
    | some (low, high, count) =>
      let tail := continuations low high count r
      if tail.length = count then
        let lead := if count = 1 then n - 0xC0 else if count = 2 then n - 0xE0 else n - 0xF0
        (some (Char.ofNat (tail.foldl (fun acc x => acc * 64 + (x - 0x80)) lead)), count)
      else (none, tail.length)

def readChars (data : Bytes) : List (Option Char) :=
  match data with
  | [] => []
  | b :: r =>
    let p := readChar b r
    p.1 :: readChars (r.drop p.2)
termination_by data.length
decreasing_by simp only [List.length_drop, List.length_cons]; omega

/-- Reads a text; what is no character is replaced. -/
def decode (data : Bytes) : String := String.ofList ((readChars data).map (·.getD replacement))

def decode? (data : Bytes) : Option String := ((readChars data).mapM id).map String.ofList

def decodeAscii (data : Bytes) : String :=
  String.ofList (data.map fun b => if b < 0x80 then Char.ofNat b.toNat else replacement)

def decodeAscii? (data : Bytes) : Option String :=
  if data.all (· < 0x80) then some (decodeAscii data) else none

end CallAtlas.Text
