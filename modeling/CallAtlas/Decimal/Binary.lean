/-!
# Floating point values as exact numbers

A finite double is `± m · 2 ^ q` with natural `m` and integer `q`.
-/

namespace CallAtlas.Decimal

inductive Binary where
  | nan
  | infinite (negative : Bool)
  /-- The number `± mantissa · 2 ^ exponent`. `narrow` says that the gap below it is half the gap
  above. -/
  | finite (negative : Bool) (mantissa : Nat) (exponent : Int) (narrow : Bool)
  deriving DecidableEq, Repr

def Binary.ofBits (bits : Nat) : Binary :=
  let negative := decide (Nat.pow 2 63 ≤ bits)
  let field : Nat := bits / Nat.pow 2 52 % Nat.pow 2 11
  let fraction : Nat := bits % Nat.pow 2 52
  if field = Nat.pow 2 11 - 1 then
    if fraction = 0 then .infinite negative else .nan
  else if field = 0 then .finite negative fraction (-1074) false
  else .finite negative (Nat.pow 2 52 + fraction) ((field : Int) - 1075) (fraction = 0 && 1 < field)

def Binary.ofFloat (x : Float) : Binary := .ofBits x.toBits.toNat

/-- The fraction `m · 2 ^ q` as a numerator and a denominator. -/
def fraction (m : Nat) (q : Int) : Nat × Nat :=
  if 0 ≤ q then (m * Nat.pow 2 q.toNat, 1) else (m, Nat.pow 2 (-q).toNat)

end CallAtlas.Decimal
