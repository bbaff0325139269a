import CallAtlas.Bytes

/-!
# Prefix codes

A code is a tree with the symbols at its leaves. It is stated by the lengths of its strings alone:
shorter strings come first, and symbols with strings of one length in their own order.
-/

namespace CallAtlas.Deflate

abbrev Bits := List Bool

/-- Why expanding stops early. -/
inductive Stop where
  | short
  | full
  | corrupt
  deriving DecidableEq, Repr

def bitsOfByte (b : UInt8) : Bits := (List.range 8).map b.toNat.testBit

def bitsOf (data : Bytes) : Bits := data.flatMap bitsOfByte

def valueOf : Bits → Nat
  | [] => 0
  | b :: r => b.toNat + 2 * valueOf r

def readNumber (width : Nat) (bits : Bits) : Except Stop (Nat × Bits) :=
  let head := bits.take width
  if head.length < width then .error .short else .ok (valueOf head, bits.drop width)

/-- A code as a tree of bits. -/
inductive Code where
  | none
  | leaf (symbol : Nat)
  /-- The strings that go on with a zero bit, and those that go on with a one bit. -/
  | node (zero one : Code)
  deriving DecidableEq, Repr

namespace Code

/-- Follows the tree to a symbol. -/
def read : Code → Bits → Except Stop (Nat × Bits)
  | .none, _ => .error .corrupt
  | .leaf symbol, bits => .ok (symbol, bits)
  | .node .., [] => .error .short
  | .node zero one, b :: r => if b then one.read r else zero.read r

def maxLength : Nat := 15

/-- The symbols that have a string, with its length: shorter strings first, symbols of one length in
order. -/
def ranked (lengths : List Nat) : List (Nat × Nat) :=
  (lengths.zipIdx.filter fun p => p.1 ≠ 0).mergeSort fun a b => a.1 ≤ b.1

/-- Gives out strings from a place on, at the stated depth, to ranked symbols: the code there, and
the symbols left over. The count bounds the depth. -/
def grow : Nat → Nat → List (Nat × Nat) → Code × List (Nat × Nat)
  | _, _, [] => (.none, [])
  | 0, _, symbols => (.none, symbols)
  | fuel + 1, depth, (length, symbol) :: r =>
    if length = depth then (.leaf symbol, r)
    else
      let (zero, left) := grow fuel (depth + 1) ((length, symbol) :: r)
      let (one, left) := grow fuel (depth + 1) left
      (.node zero one, left)

/-- The share of all strings that strings of the given lengths take, in parts of `2 ^ maxLength`. -/
def share (lengths : List Nat) : Nat :=
  (lengths.filter (· ≠ 0)).foldl (fun n length => n + Nat.pow 2 (maxLength - length)) 0

/-- The code with strings of the given lengths, zero for none. The strings must leave no room, with
two exceptions if `mayLack` holds: a single string of one bit, and none at all. -/
def ofLengths? (mayLack : Bool) (lengths : List Nat) : Option Code :=
  let code := (grow (maxLength + 1) 0 (ranked lengths)).1
  if share lengths = Nat.pow 2 maxLength then some code
  else if Nat.pow 2 maxLength < share lengths || !mayLack then none
  else if lengths.all (· = 0) then some (.node .none .none)
  else if lengths.all (· ≤ 1) then some code
  else none

end Code

end CallAtlas.Deflate
