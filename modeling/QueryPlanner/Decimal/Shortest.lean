import QueryPlanner.Decimal.Rounded

/-!
# Shortest decimal rendering

`shortestText` writes a double with the fewest significant digits that read back as the same
double, always in positional notation. The candidates of each length are the two neighbours of
the value on the decimal grid of that length, and the test is exact.
-/

namespace QueryPlanner.Decimal

/-- The decimal number `digits * 10 ^ power`. -/
structure Decimal where
  digits : Nat
  power : Int
  deriving DecidableEq, Repr

/-- The real numbers that read as one double, all scaled by the common factor `1 / unit`: the
value lies between `low` and `high`, and the ends count exactly when the coefficient is even. -/
structure ReadingInterval where
  low : Nat
  value : Nat
  high : Nat
  unit : Nat
  closed : Bool

/-- The interval of reals that round to a positive finite double. Below a power of two the
neighbour is only half as far away. -/
def readingInterval (value : Binary64) : ReadingInterval :=
  let (numerator, denominator) := Binary64.scale 1 value.exponent
  let narrow := value.coefficient == Nat.pow 2 Binary64.fractionBits &&
    value.exponent != Binary64.leastExponent
  { low := (4 * value.coefficient - if narrow then 1 else 2) * numerator
    value := 4 * value.coefficient * numerator
    high := (4 * value.coefficient + 2) * numerator
    unit := 4 * denominator
    closed := value.coefficient % 2 == 0 }

/-- Whether the decimal reads as the double the interval belongs to. -/
def ReadingInterval.contains (interval : ReadingInterval) (candidate : Decimal) : Bool :=
  let (numerator, denominator) :=
    timesPowerOfTen (candidate.digits * interval.unit) 1 candidate.power
  let low := interval.low * denominator
  let high := interval.high * denominator
  if interval.closed then low ≤ numerator && numerator ≤ high
  else low < numerator && numerator < high

/-- The neighbours of the value on the grid of step `10 ^ power`, the nearer one first. An exact
tie goes up. -/
def ReadingInterval.neighbours (interval : ReadingInterval) (power : Int) : List Decimal :=
  let (numerator, denominator) := timesPowerOfTen interval.value interval.unit (-power)
  let below := numerator / denominator
  let lower : Decimal := ⟨below, power⟩
  let upper : Decimal := ⟨below + 1, power⟩
  if 2 * (numerator % denominator) < denominator then [lower, upper] else [upper, lower]

/-- Try one more digit at a time until a neighbour on the grid reads back, for at most `remaining`
more digits. Seventeen digits always suffice. -/
def searchDigits (interval : ReadingInterval) (order : Int) (digits : Nat) :
    Nat → Decimal
  | 0 => ⟨interval.value / interval.unit, 0⟩
  | remaining + 1 =>
    match (interval.neighbours (order + 1 - digits)).find? interval.contains with
    | some found => found
    | none => searchDigits interval order (digits + 1) remaining

/-- The shortest decimal that reads back as the positive finite double. -/
def shortestDecimal (value : Binary64) : Decimal :=
  let interval := readingInterval value
  let order := decimalOrder interval.value interval.unit
  let found := searchDigits interval order 1 17
  if found.digits % 10 == 0 then ⟨found.digits / 10, found.power + 1⟩ else found

/-- A decimal in positional notation. -/
def Decimal.positional (value : Decimal) : String :=
  match value.power with
  | .ofNat zeros => toString value.digits ++ String.ofList (List.replicate zeros '0')
  | .negSucc down =>
    let places := down + 1
    toString (value.digits / Nat.pow 10 places) ++ "." ++ paddedDigits places (value.digits % Nat.pow 10 places)

/-- A double with the fewest digits that read back, without an exponent. -/
def shortestText (value : Float) : String :=
  match Binary64.classify value with
  | .notANumber => "NaN"
  | .infinite negative => signText negative ++ "inf"
  | .finite finite =>
    if finite.coefficient == 0 then signText finite.negative ++ "0"
    else signText finite.negative ++ (shortestDecimal finite).positional

end QueryPlanner.Decimal
