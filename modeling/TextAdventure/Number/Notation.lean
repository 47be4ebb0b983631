import TextAdventure.Number.Binary
import TextAdventure.Number.Shortest

/-! # Written numbers

A double is written with its shortest digits. A style says what follows the digits of a whole number
and which scientific exponents are written positionally.
-/
namespace TextAdventure.Number

structure FloatStyle where
  /-- Text after the digits of a whole number. -/
  whole : String
  /-- Whether a number of this scientific exponent is written without an exponent. -/
  isPositional : Int → Bool

/-- Numbers as a player reads them: no exponent and no point after a whole number. -/
def FloatStyle.plain : FloatStyle := ⟨"", fun _ => true⟩

/-- Numbers as a diagnostic shows them: whole numbers end in `.0`, and an exponent stands for
magnitudes below `10 ^ -4` or from `10 ^ 16` on. -/
def FloatStyle.inspected : FloatStyle := ⟨".0", fun e => -4 ≤ e && e < 16⟩

def naturalText (n : Nat) : String :=
  String.ofList (Nat.toDigits 10 n)

def integerText (n : Int) : String :=
  if n < 0 then "-" ++ naturalText n.natAbs else naturalText n.natAbs

def zeros (n : Nat) : String :=
  String.ofList (List.replicate n '0')

/-- Digits with the point `point` places after the first digit. -/
def positionalText (style : FloatStyle) (digits : List Char) (point : Int) : String :=
  if point ≤ 0 then "0." ++ zeros (-point).toNat ++ String.ofList digits
  else if digits.length ≤ point then
    String.ofList digits ++ zeros (point - digits.length).toNat ++ style.whole
  else
    String.ofList (digits.take point.toNat) ++ "." ++ String.ofList (digits.drop point.toNat)

/-- Digits with the point after the first one and the exponent that makes up for it. -/
def scientificText (digits : List Char) (exponent : Int) : String :=
  let fraction := digits.drop 1
  String.ofList (digits.take 1) ++
    (if fraction.isEmpty then "" else "." ++ String.ofList fraction) ++
    "e" ++ integerText exponent

def decimalText (style : FloatStyle) (d : Decimal) : String :=
  let digits := Nat.toDigits 10 d.digits
  let point := digits.length + d.exponent
  if style.isPositional (point - 1) then positionalText style digits point
  else scientificText digits (point - 1)

def floatText (style : FloatStyle) (x : Float) : String :=
  let sign (negative : Bool) := if negative then "-" else ""
  match quantity x with
  | .undefined => "NaN"
  | .infinite negative => sign negative ++ "inf"
  | .finite negative 0 _ => sign negative ++ "0" ++ style.whole
  | .finite negative m q => sign negative ++ decimalText style (shortest m q)

end TextAdventure.Number
