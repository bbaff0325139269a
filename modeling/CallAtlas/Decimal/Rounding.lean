import CallAtlas.Decimal.Binary

/-!
# Rounding to places

A double is rounded on its exact value, and a half to the even multiple.
-/

namespace CallAtlas.Decimal

/-- The integer nearest to `num / den`, a half going to the even neighbour. -/
def roundDiv (num den : Nat) : Nat :=
  let low := num / den
  let rest := 2 * (num % den)
  if rest < den then low
  else if den < rest then low + 1
  else if low % 2 = 0 then low else low + 1

/-- The double nearest to `digits · 10 ^ -places`, with a sign. -/
def ofPlaces (negative : Bool) (digits places : Nat) : Float :=
  let x := Float.ofScientific digits true places
  if negative then -x else x

def roundPlaces (places : Nat) (x : Float) : Float :=
  match Binary.ofFloat x with
  | .finite negative m q _ =>
    let (num, den) := fraction m q
    ofPlaces negative (roundDiv (num * Nat.pow 10 places) den) places
  | _ => x

end CallAtlas.Decimal
