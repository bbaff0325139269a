import CallAtlas.Decimal.Binary

/-!
# The fewest digits that read back

Of the decimals that a reader rounds to a double, one with the fewest digits, and of these the
nearest.
-/

namespace CallAtlas.Decimal

structure Digits where
  digits : Nat
  exponent : Int
  deriving DecidableEq, Repr

/-- Compares `a · 10 ^ e` with `num / den`. -/
def comparePower (a : Nat) (e : Int) (num den : Nat) : Ordering :=
  if 0 ≤ e then compare (a * Nat.pow 10 e.toNat * den) num
    else compare (a * den) (num * Nat.pow 10 (-e).toNat)

/-- The least `k` with `num / den < 10 ^ k`, searched upwards from `k`. -/
def scaleUp : Nat → Int → Nat → Nat → Int
  | 0, k, _, _ => k
  | fuel + 1, k, num, den =>
    if comparePower 1 k num den = .gt then k else scaleUp fuel (k + 1) num den

/-- The values that round to `m · 2 ^ q`: between the two halfway points, which belong to them
exactly when `m` is even. -/
def roundsTo (m : Nat) (q : Int) (narrow : Bool) (a : Nat) (e : Int) : Bool :=
  let low := if narrow then fraction (4 * m - 1) (q - 2) else fraction (2 * m - 1) (q - 1)
  let high := fraction (2 * m + 1) (q - 1)
  let below := comparePower a e low.1 low.2
  let above := comparePower a e high.1 high.2
  (below = .gt || (below = .eq && m % 2 = 0)) && (above = .lt || (above = .eq && m % 2 = 0))

def stripZeros : Nat → Digits → Digits
  | 0, d => d
  | fuel + 1, d => if d.digits % 10 = 0 then stripZeros fuel ⟨d.digits / 10, d.exponent + 1⟩ else d

/-- The decimal with `n` digits or fewer that rounds to `m · 2 ^ q < 10 ^ k`, the nearer of two. -/
def onGrid? (m : Nat) (q : Int) (narrow : Bool) (k : Int) (n : Nat) : Option Digits :=
  let e := k - n
  let (num, den) := fraction m q
  let low := if 0 ≤ e then num / (den * Nat.pow 10 e.toNat) else num * Nat.pow 10 (-e).toNat / den
  let hitLow := roundsTo m q narrow low e
  let hitHigh := roundsTo m q narrow (low + 1) e
  let nearer := comparePower (2 * low + 1) e (2 * num) den
  if hitLow && (!hitHigh || nearer = .gt || (nearer = .eq && low % 2 = 0)) then some ⟨low, e⟩
  else if hitHigh then some ⟨low + 1, e⟩
  else none

/-- The fewest digits of a positive number `m · 2 ^ q`. -/
def shortest (m : Nat) (q : Int) (narrow : Bool) : Digits :=
  let (num, den) := fraction m q
  let k := scaleUp 700 (-330) num den
  let found := (List.range 17).findSome? fun i => onGrid? m q narrow k (i + 1)
  stripZeros 400 (found.getD
    (if 0 ≤ q then ⟨num, 0⟩ else ⟨m * Nat.pow 5 (-q).toNat, q⟩))

end CallAtlas.Decimal
