import QueryPlanner.Decimal.Binary64

/-!
# Rounded decimal renderings

Two renderings of a double with a chosen precision, both rounded exactly from the binary value
with ties to even: `fixedText` keeps a number of decimal places, `scientificText` keeps a number
of significant digits.
-/

namespace QueryPlanner.Decimal

/-- The decimal digits of a natural, filled with zeros on the left up to the given length. -/
def paddedDigits (length value : Nat) : String :=
  let digits := toString value
  String.ofList (List.replicate (length - digits.length) '0') ++ digits

/-- The sign written before a magnitude. -/
def signText (negative : Bool) : String :=
  if negative then "-" else ""

/-- A finite value with exactly the given number of decimal places. The sign of a negative value
is kept even when the magnitude rounds to zero. -/
def finiteFixedText (places : Nat) (value : Binary64) : String :=
  let (numerator, denominator) := value.ratio
  let scaled := roundHalfEven (numerator * Nat.pow 10 places) denominator
  let whole := toString (scaled / Nat.pow 10 places)
  if places == 0 then signText value.negative ++ whole
  else signText value.negative ++ whole ++ "." ++ paddedDigits places (scaled % Nat.pow 10 places)

/-- A double with exactly the given number of decimal places. -/
def fixedText (places : Nat) (value : Float) : String :=
  match Binary64.classify value with
  | .notANumber => "NaN"
  | .infinite negative => signText negative ++ "inf"
  | .finite finite => finiteFixedText places finite

/-- The digits of a positive quotient rounded to `digits` significant digits, with the exponent
of the first one. Rounding up to a power of ten moves the exponent. -/
def significantDigits (digits numerator denominator : Nat) : Nat × Int :=
  let order := decimalOrder numerator denominator
  let (scaledNumerator, scaledDenominator) :=
    timesPowerOfTen numerator denominator ((digits : Int) - 1 - order)
  let rounded := roundHalfEven scaledNumerator scaledDenominator
  if rounded == Nat.pow 10 digits then (Nat.pow 10 (digits - 1), order + 1) else (rounded, order)

/-- A double in scientific notation with `digits + 1` significant digits: one digit, a point, the
other digits, the letter `e` and the exponent. Both zeros are written without a sign. -/
def scientificText (digits : Nat) (value : Float) : String :=
  match Binary64.classify value with
  | .notANumber => "nan"
  | .infinite negative => signText negative ++ "inf"
  | .finite finite =>
    if finite.coefficient == 0 then
      "0." ++ paddedDigits digits 0 ++ "e0"
    else
      let (numerator, denominator) := finite.ratio
      let (significand, order) := significantDigits (digits + 1) numerator denominator
      signText finite.negative ++ toString (significand / Nat.pow 10 digits) ++ "." ++
        paddedDigits digits (significand % Nat.pow 10 digits) ++ "e" ++ toString order

end QueryPlanner.Decimal
