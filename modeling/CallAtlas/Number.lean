import CallAtlas.Decimal.Layout
import CallAtlas.Decimal.Rounding

/-!
# Numbers

Whole numbers stay whole under addition and subtraction; a double makes the result a double.
-/

namespace CallAtlas

/-- A whole number or a float. -/
inductive Number where
  | int (value : Int)
  | float (value : Float)
  deriving Repr, Inhabited

namespace Number

def toFloat : Number → Float
  | .int i =>
    let x := Float.ofNat i.natAbs
    if i < 0 then -x else x
  | .float x => x

def isZero : Number → Bool
  | .int i => i = 0
  | .float x => x == 0.0

def add : Number → Number → Number
  | .int i, .int j => .int (i + j)
  | a, b => .float (a.toFloat + b.toFloat)

def sub : Number → Number → Number
  | .int i, .int j => .int (i - j)
  | a, b => .float (a.toFloat - b.toFloat)

/-- The number rounded to two decimal places, a half to the even neighbour; whole numbers stay. -/
def roundTwo : Number → Number
  | .int i => .int i
  | .float x => .float (Decimal.roundPlaces 2 x)

def render (n : Number) (f : Decimal.Layout) : String :=
  match n with
  | .int i => String.ofList (Text.intDigits i)
  | .float x => f.render x

end Number

end CallAtlas
