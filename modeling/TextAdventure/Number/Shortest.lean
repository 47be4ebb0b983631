/-! # Shortest decimal digits

The fewest decimal digits that still lie in the interval of reals rounding to a given binary quantity
`mantissa · 2 ^ exponent`; of two such decimals of equal length the nearer one, and the greater one of
two equally near. All comparisons are exact comparisons of natural numbers.
-/
namespace TextAdventure.Number

/-- The number `digits · 10 ^ exponent`. -/
structure Decimal where
  digits : Nat
  exponent : Int

/-- Compares `a · 10 ^ s` with `b · 2 ^ r`. -/
def compareScaled (a : Nat) (s : Int) (b : Nat) (r : Int) : Ordering :=
  compare (a * Nat.pow 10 s.toNat * Nat.pow 2 (-r).toNat)
    (b * Nat.pow 2 r.toNat * Nat.pow 10 (-s).toNat)

/-- Whether `a · 10 ^ s` rounds to `m · 2 ^ q`. The interval reaches half-way to the neighbouring
doubles, of which the lower one is nearer when `m` is a power of two, and its ends belong to it
exactly if `m` is even. -/
def roundsTo (a : Nat) (s : Int) (m : Nat) (q : Int) : Bool :=
  let low := if m = Nat.pow 2 52 then 4 * m - 1 else 4 * m - 2
  let belowLow := compareScaled a s low (q - 2)
  let aboveHigh := compareScaled a s (4 * m + 2) (q - 2)
  if m % 2 = 0 then belowLow != .lt && aboveHigh != .gt
  else belowLow == .gt && aboveHigh == .lt

def wholePart (m : Nat) (q s : Int) : Nat :=
  m * Nat.pow 2 q.toNat * Nat.pow 10 (-s).toNat /
    (Nat.pow 2 (-q).toNat * Nat.pow 10 s.toNat)

/-- The `e` with `10 ^ (e - 1) ≤ m · 2 ^ q < 10 ^ e`, for a positive double. -/
def decimalMagnitude (m : Nat) (q : Int) : Int :=
  (Nat.toDigits 10 (wholePart m q (-350))).length - 350

/-- The decimal `digits · 10 ^ s`; a power of ten is written with one digit. -/
def decimalAt (digits count : Nat) (s : Int) : Decimal :=
  if digits = Nat.pow 10 count then ⟨1, s + count⟩ else ⟨digits, s⟩

/-- The decimal with `count` digits that rounds to `m · 2 ^ q` and is nearest to it, if
one does. -/
def nearestOfLength? (m : Nat) (q : Int) (count : Nat) : Option Decimal :=
  let s := decimalMagnitude m q - count
  let below := wholePart m q s
  match roundsTo below s m q, roundsTo (below + 1) s m q with
  | true, true =>
    if compareScaled (2 * below + 1) s (2 * m) q == .gt then some ⟨below, s⟩
    else some (decimalAt (below + 1) count s)
  | true, false => some ⟨below, s⟩
  | false, true => some (decimalAt (below + 1) count s)
  | false, false => none

/-- Seventeen digits always suffice for a double. -/
def shortest (m : Nat) (q : Int) : Decimal :=
  (((List.range 17).map (· + 1)).findSome? (nearestOfLength? m q)).getD
    ⟨wholePart m q (decimalMagnitude m q - 17), decimalMagnitude m q - 17⟩

end TextAdventure.Number
