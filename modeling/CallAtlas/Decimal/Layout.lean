import CallAtlas.Decimal.Shortest
import CallAtlas.Text.Digit

/-!
# Decimal layout

Digits are laid out positionally while the first one stands between the fourth place behind the
point and the sixteenth before it, and with an exponent otherwise.
-/

namespace CallAtlas.Decimal

structure Layout where
  /-- The least and the greatest power of ten of the first digit that are written positionally. -/
  positional : Int × Int
  wholeTail : String
  exponentWidth : Nat
  nan : String
  infinity : String

def plain : Layout := ⟨(-4, 15), ".0", 2, "nan", "inf"⟩

def document : Layout := ⟨(-4, 15), ".0", 2, "NaN", "Infinity"⟩

def Layout.place (f : Layout) (d : Digits) : String :=
  let ds := Text.natDigits d.digits
  let first := d.exponent + ds.length - 1
  if f.positional.1 ≤ first ∧ first ≤ f.positional.2 then
    if 0 ≤ d.exponent then
      String.ofList (ds ++ List.replicate d.exponent.toNat '0') ++ f.wholeTail
    else if 0 ≤ first then
      let whole := first.toNat + 1
      String.ofList (ds.take whole ++ '.' :: ds.drop whole)
    else String.ofList ('0' :: '.' :: List.replicate (-first - 1).toNat '0' ++ ds)
  else
    let mantissa := match ds with
      | [c] => [c]
      | c :: r => c :: '.' :: r
      | [] => ['0']
    let es := Text.natDigits first.natAbs
    let sign := if first < 0 then '-' else '+'
    String.ofList (mantissa ++ 'e' :: sign :: List.replicate (f.exponentWidth - es.length) '0' ++
      es)

def Layout.render (f : Layout) (x : Float) : String :=
  match Binary.ofFloat x with
  | .nan => f.nan
  | .infinite negative => (if negative then "-" else "") ++ f.infinity
  | .finite negative m q narrow =>
    (if negative then "-" else "") ++
      (if m = 0 then "0" ++ f.wholeTail else f.place (shortest m q narrow))

end CallAtlas.Decimal
