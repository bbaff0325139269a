import CallAtlas.Text.Digit

/-!
# Reading decimals

The double nearest to a written decimal.
-/

namespace CallAtlas.Decimal

open Text

def infinity : Float := 1.0 / 0.0

/-- The double nearest to `digits · 10 ^ exponent`. Exponents far outside the range of doubles are
answered without computing the power. -/
def nearest (digits : Nat) (exponent : Int) : Float :=
  if digits = 0 then 0.0
  else
    let first := exponent + (natDigits digits).length
    if 320 < first then infinity
    else if first < -400 then 0.0
    else if 0 ≤ exponent then Float.ofScientific digits false exponent.toNat
    else Float.ofScientific digits true (-exponent).toNat

structure Written where
  whole : List Char
  places : List Char
  exponent : Int

def Written.value (w : Written) : Float :=
  nearest (digitsValue (w.whole ++ w.places)) (w.exponent - w.places.length)

/-- Whether underscores stand only between two digits. -/
def underscoresInside : Bool → List Char → Bool
  | _, [] => true
  | afterDigit, '_' :: r =>
    afterDigit && (match r with | c :: _ => isDecimal c | [] => false) && underscoresInside false r
  | _, c :: r => underscoresInside (isDecimal c) r

/-- An exponent: a mark, an optional sign and at least one digit, up to the end of the text. -/
def readExponent? : List Char → Option Int
  | [] => some 0
  | c :: r =>
    if c = 'e' ∨ c = 'E' then
      let (negative, ds) := match r with
        | '-' :: ds => (true, ds)
        | '+' :: ds => (false, ds)
        | ds => (false, ds)
      if ds ≠ [] ∧ ds.all isDecimal then
        some (if negative then -(digitsValue ds : Int) else digitsValue ds)
      else none
    else none

/-- A decimal without sign: digits, a point and an exponent, with at least one digit around the
point. -/
def readUnsigned? (s : List Char) : Option Float :=
  let lower := s.map Char.toLower
  if lower = "inf".toList ∨ lower = "infinity".toList then some infinity
  else if lower = "nan".toList then some (0.0 / 0.0)
  else if ¬ underscoresInside false s then none
  else
    let s := s.filter (· ≠ '_')
    let whole := s.takeWhile isDecimal
    let (places, rest) := match s.dropWhile isDecimal with
      | '.' :: r => (r.takeWhile isDecimal, r.dropWhile isDecimal)
      | r => ([], r)
    if whole = [] ∧ places = [] then none
    else (readExponent? rest).map fun e => (Written.mk whole places e).value

def readFloat? (s : List Char) : Option Float :=
  match dropPadding s with
  | '-' :: r => (readUnsigned? r).map (- ·)
  | '+' :: r => readUnsigned? r
  | r => readUnsigned? r

end CallAtlas.Decimal
