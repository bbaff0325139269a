import CallAtlas.Number
import CallAtlas.Table

/-!
# Document values

Numbers are whole or doubles, and an object keeps the order of its keys.
-/

namespace CallAtlas

inductive Json where
  | null
  | bool (value : Bool)
  | num (value : Number)
  | str (value : String)
  | arr (items : List Json)
  | obj (members : List (String × Json))
  deriving Repr, Inhabited

namespace Json

def int (i : Int) : Json := .num (.int i)

def nat (n : Nat) : Json := .num (.int n)

def ofString? : Option String → Json
  | some s => .str s
  | none => .null

def ofInt? : Option Int → Json
  | some i => int i
  | none => .null

def get? (j : Json) (key : String) : Option Json :=
  match j with
  | .obj members => Table.find key members
  | _ => none

/-- Whether a value counts as absent where a text is optional: null, false, zero, and everything
empty. -/
def isFalsy : Json → Bool
  | .null => true
  | .bool b => !b
  | .num n => n.isZero
  | .str s => s.isEmpty
  | .arr items => items.isEmpty
  | .obj members => members.isEmpty

def asNumber? : Json → Option Number
  | .bool b => some (.int (if b then 1 else 0))
  | .num n => some n
  | _ => none

/-- Whether two numbers are equal as numbers, whole or not; what is no number is equal to itself. -/
def sameNumber : Number → Number → Bool
  | .int i, .int j => i = j
  | .float x, .float y => x == y || (x.isNaN && y.isNaN)
  | .int i, .float x | .float x, .int i =>
    match Decimal.Binary.ofFloat x with
    | .finite negative m q _ =>
      let (above, below) := Decimal.fraction m q
      i * below = if negative then -(above : Int) else above
    | _ => false

mutual

/-- Whether two values are equal: numbers by value, objects whatever the order of their keys. -/
def same : Json → Json → Bool
  | .null, .null => true
  | .str s, .str t => s = t
  | .arr xs, .arr ys => sameItems xs ys
  | .obj xs, .obj ys => xs.length = ys.length && sameMembers xs ys
  | x, y =>
    match x.asNumber?, y.asNumber? with
    | some m, some n => sameNumber m n
    | _, _ => false

def sameItems : List Json → List Json → Bool
  | [], [] => true
  | x :: xs, y :: ys => same x y && sameItems xs ys
  | _, _ => false

def sameMembers : List (String × Json) → List (String × Json) → Bool
  | [], _ => true
  | (k, x) :: xs, ys =>
    (match Table.find k ys with
      | some y => same x y
      | none => false) && sameMembers xs ys

end

end Json

end CallAtlas
