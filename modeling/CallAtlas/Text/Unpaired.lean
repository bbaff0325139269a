/-!
# Units without a partner

A document may hold one unit of a surrogate pair alone, which is no character. It is kept in a text
as a stand-in from a private area, `0xF0000` above the unit.
-/

namespace CallAtlas.Text

def isHighUnit (n : Nat) : Bool := 0xD800 ≤ n && n < 0xDC00

def isLowUnit (n : Nat) : Bool := 0xDC00 ≤ n && n < 0xE000

def ofUnit (n : Nat) : Char :=
  if isHighUnit n || isLowUnit n then Char.ofNat (0xF0000 + n) else Char.ofNat n

def isUnpaired (c : Char) : Bool := 0xFD800 ≤ c.toNat && c.toNat < 0xFE000

/-- The number of a character, or of the unit that it stands for. -/
def codeOf (c : Char) : Nat := if isUnpaired c then c.toNat - 0xF0000 else c.toNat

end CallAtlas.Text
