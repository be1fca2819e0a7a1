/-!
# Binary64 values as exact numbers

A finite double is a sign, a natural coefficient and a power of two. `Binary64.classify` reads
these off the bits; `Binary64.ratio` gives the magnitude as a quotient of naturals, which is what
the decimal renderings compute with.
-/

namespace QueryPlanner.Decimal

/-- A finite double: its magnitude is `coefficient * 2 ^ exponent`. -/
structure Binary64 where
  negative : Bool
  coefficient : Nat
  exponent : Int
  deriving DecidableEq, Repr

/-- What a double is: not a number, an infinity, or a finite value. -/
inductive FloatClass where
  | notANumber
  | infinite (negative : Bool)
  | finite (value : Binary64)
  deriving DecidableEq, Repr

namespace Binary64

/-- The number of fraction bits stored in a double. -/
def fractionBits : Nat := 52

/-- The exponent of the unit in the last place of the smallest doubles. -/
def leastExponent : Int := -1074

/-- Read the sign, the coefficient and the exponent off the bits of a double. Normal values have
an implicit leading bit, subnormal values do not. -/
def classify (value : Float) : FloatClass :=
  let bits := value.toBits.toNat
  let negative := bits / Nat.pow 2 63 == 1
  let biased := bits / Nat.pow 2 fractionBits % Nat.pow 2 11
  let fraction := bits % Nat.pow 2 fractionBits
  if biased == 2047 then
    if fraction == 0 then .infinite negative else .notANumber
  else if biased == 0 then
    .finite ⟨negative, fraction, leastExponent⟩
  else
    .finite ⟨negative, Nat.pow 2 fractionBits + fraction, leastExponent + (biased - 1 : Nat)⟩

/-- The magnitude `scaled * 2 ^ power` as a quotient of naturals. -/
def scale (scaled : Nat) (power : Int) : Nat × Nat :=
  match power with
  | .ofNat up => (scaled * Nat.pow 2 up, 1)
  | .negSucc down => (scaled, Nat.pow 2 (down + 1))

/-- The magnitude of a finite double as a quotient of naturals. -/
def ratio (value : Binary64) : Nat × Nat :=
  scale value.coefficient value.exponent

end Binary64

/-- The quotient rounded to the nearest natural, an exact half going to the even neighbour. -/
def roundHalfEven (numerator denominator : Nat) : Nat :=
  let quotient := numerator / denominator
  let twice := 2 * (numerator % denominator)
  if twice < denominator then quotient
  else if denominator < twice then quotient + 1
  else if quotient % 2 == 0 then quotient
  else quotient + 1

/-- The decimal order of a positive quotient: the exponent `e` with
`10 ^ e ≤ numerator / denominator < 10 ^ (e + 1)`, found from the digit counts of both parts. -/
def decimalOrder (numerator denominator : Nat) : Int :=
  if denominator ≤ numerator then
    ((Nat.toDigits 10 (numerator / denominator)).length : Int) - 1
  else
    let quotient := denominator / numerator
    let order := (Nat.toDigits 10 quotient).length
    if quotient == Nat.pow 10 (order - 1) && denominator % numerator == 0 then
      -((order : Int) - 1)
    else
      -(order : Int)

/-- Multiply a quotient of naturals by a power of ten. -/
def timesPowerOfTen (numerator denominator : Nat) (power : Int) : Nat × Nat :=
  match power with
  | .ofNat up => (numerator * Nat.pow 10 up, denominator)
  | .negSucc down => (numerator, denominator * Nat.pow 10 (down + 1))

end QueryPlanner.Decimal
