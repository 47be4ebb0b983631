/-! # Doubles as exact quantities

A double is no number, an infinity, or a signed natural number times a power of two. Remainder and
rounding down are computed on that form in exact arithmetic.
-/
namespace TextAdventure.Number

/-- The quantity a double stands for; `finite` is `± mantissa · 2 ^ exponent`. -/
inductive Quantity where
  | undefined
  | infinite (negative : Bool)
  | finite (negative : Bool) (mantissa : Nat) (exponent : Int)

def quantity (x : Float) : Quantity :=
  let bits := x.toBits.toNat
  let negative := bits / Nat.pow 2 63 = 1
  let biased : Nat := bits / Nat.pow 2 52 % Nat.pow 2 11
  let fraction : Nat := bits % Nat.pow 2 52
  if biased = 2047 then
    if fraction = 0 then .infinite negative else .undefined
  else if biased = 0 then .finite negative fraction (-1074)
  else .finite negative (Nat.pow 2 52 + fraction) ((biased : Int) - 1075)

def undefined : Float := 0.0 / 0.0

/-- The double `± mantissa · 2 ^ exponent`, for a mantissa below `2 ^ 53` and an exponent of at least
`-1074`; a mantissa with fewer digits is shifted up as far as the exponent allows. -/
def ofQuantity (negative : Bool) (mantissa : Nat) (exponent : Int) : Float :=
  let shift := min (52 - mantissa.log2) (exponent + 1074).toNat
  let shifted := mantissa * Nat.pow 2 shift
  let magnitude :=
    if shifted < Nat.pow 2 52 then shifted
    else (exponent - shift + 1075).toNat * Nat.pow 2 52 + (shifted - Nat.pow 2 52)
  Float.ofBits (UInt64.ofNat (magnitude + if negative then Nat.pow 2 63 else 0))

/-- What is left of `x` after taking away a whole number of `y`, rounded toward zero. The result is
exact and has the sign of `x`. -/
def remainder (x y : Float) : Float :=
  match quantity x, quantity y with
  | .finite negative m e, .finite _ n f =>
    if n = 0 then undefined
    else
      let unit := min e f
      ofQuantity negative ((m * Nat.pow 2 (e - unit).toNat) % (n * Nat.pow 2 (f - unit).toNat)) unit
  | .finite .., .infinite _ => x
  | _, _ => undefined

def clampInt64 (n : Int) : Int64 :=
  if n < Int64.minValue.toInt then Int64.minValue
  else if Int64.maxValue.toInt < n then Int64.maxValue
  else Int64.ofInt n

theorem toInt_clampInt64 (n : Int) :
    (clampInt64 n).toInt = max Int64.minValue.toInt (min n Int64.maxValue.toInt) := by
  have hmin : Int64.minValue.toInt = -2 ^ 63 := rfl
  have hmax : Int64.maxValue.toInt = 2 ^ 63 - 1 := rfl
  unfold clampInt64
  split
  · omega
  split
  · omega
  · rw [Int64.toInt_ofInt_of_le] <;> omega

/-- The greatest integer not above `x`, clamped to 64 bits; zero where there is none. -/
def floorInt64 (x : Float) : Int64 :=
  match quantity x with
  | .undefined => 0
  | .infinite negative => if negative then Int64.minValue else Int64.maxValue
  | .finite negative m e =>
    let signed : Int := if negative then -m else m
    clampInt64 (Int.fdiv (signed * Int.pow 2 e.toNat) (Int.pow 2 (-e).toNat))

/-- The double nearest to a 64-bit integer, ties to even. -/
def ofInt64 (n : Int64) : Float :=
  if n < 0 then -(-n).toUInt64.toFloat else n.toUInt64.toFloat

end TextAdventure.Number
