/-!
# Binary fractions of 64 bits

A finite double is a sign, a mantissa below `2 ^ 53` and a binary exponent. Quotients of natural
numbers are rounded to the nearest double in exact arithmetic, a tie going to the even mantissa, and
a double is written with the fewest decimal digits that round back to it.
-/

namespace KnowledgeGraph

/-- A finite double: `mantissa * 2 ^ exponent`, negated when `negative` is set. -/
structure Binary64 where
  /-- The sign, which zero has as well. -/
  negative : Bool
  /-- The digits, below `2 ^ 53`, and at least `2 ^ 52` unless the exponent is the least one. -/
  mantissa : Nat
  /-- The power of two of the last digit, at least `-1074`. -/
  exponent : Int
  deriving DecidableEq, Inhabited

namespace Binary64

/-- The exponent of the smallest positive double. -/
def leastExponent : Int := -1074

/-- The exponent of the largest double. -/
def greatestExponent : Int := 971

/-- Zero without a sign. -/
def zero : Binary64 := ⟨false, 0, leastExponent⟩

/-- `numerator / denominator * 2 ^ shift` as a fraction of natural numbers. -/
def scaled (numerator denominator : Nat) (shift : Int) : Nat × Nat :=
  (numerator * Nat.pow 2 shift.toNat, denominator * Nat.pow 2 (-shift).toNat)

/-- The integer nearest to a fraction; halfway goes to the even neighbour. -/
def nearest (numerator denominator : Nat) : Nat :=
  let quotient := numerator / denominator
  let twice := 2 * (numerator % denominator)
  if twice < denominator then quotient
  else if denominator < twice then quotient + 1
  else quotient + quotient % 2

/-- The exponent at which a positive fraction has a mantissa of 53 binary digits, or the least
exponent when that one is larger. -/
def exponentOf (numerator denominator : Nat) : Int :=
  let guess : Int := (numerator.log2 : Int) - denominator.log2 - 52
  let fraction := scaled numerator denominator (-guess)
  let exact := if fraction.1 / fraction.2 < Nat.pow 2 52 then guess - 1 else guess
  max exact leastExponent

/-- The double nearest to a non-negative fraction with a positive denominator, unless it is too
large. -/
def ofFraction? (numerator denominator : Nat) : Option Binary64 :=
  if numerator = 0 then some zero
  else
    let exponent := exponentOf numerator denominator
    let fraction := scaled numerator denominator (-exponent)
    let mantissa := nearest fraction.1 fraction.2
    let carried := decide (Nat.pow 2 53 ≤ mantissa)
    let exponent := if carried then exponent + 1 else exponent
    if greatestExponent < exponent then none
    else some ⟨false, if carried then Nat.pow 2 52 else mantissa, exponent⟩

/-- The magnitude as a fraction. -/
def fraction (x : Binary64) : Nat × Nat := scaled x.mantissa 1 x.exponent

/-- The power of ten with a natural exponent, rounded. -/
def powerOfTen? (exponent : Nat) : Option Binary64 := ofFraction? (Nat.pow 10 exponent) 1

/-- The rounded product of two magnitudes, unless it is too large. -/
def times? (x y : Binary64) : Option Binary64 :=
  ofFraction? (x.fraction.1 * y.fraction.1) (x.fraction.2 * y.fraction.2)

/-- The rounded quotient of two magnitudes, unless it is too large. -/
def over? (x y : Binary64) : Option Binary64 :=
  ofFraction? (x.fraction.1 * y.fraction.2) (x.fraction.2 * y.fraction.1)

/-- The largest power of ten that a double can hold. -/
def greatestPower : Nat := 308

/-- Scales a magnitude by a power of ten in rounded steps. A negative power beyond the table of
powers is taken in several steps; three reach zero from any 64-bit digit string. -/
def scaleByTen? : Nat → Binary64 → Int → Option Binary64
  | 0, _, _ => some zero
  | steps + 1, x, exponent =>
    if exponent.natAbs ≤ greatestPower then do
      let power ← powerOfTen? exponent.natAbs
      if 0 ≤ exponent then times? x power else over? x power
    else if x.mantissa = 0 then some zero
    else if 0 ≤ exponent then none
    else do
      let power ← powerOfTen? greatestPower
      scaleByTen? steps (← over? x power) (exponent + greatestPower)

/-- The double written as `digits * 10 ^ exponent`, unless it is too large. The digits are rounded
first and scaled afterwards. -/
def ofDecimal? (negative : Bool) (digits : Nat) (exponent : Int) : Option Binary64 := do
  let rounded ← ofFraction? digits 1
  let magnitude ← scaleByTen? 4 rounded exponent
  some { magnitude with negative }

/-- Whether a fraction lies among the reals that round to a positive double. The ends of the
interval belong to it exactly when the mantissa is even. -/
def roundsTo (x : Binary64) (numerator denominator : Nat) : Bool :=
  -- All bounds are taken in quarters of the last binary digit.
  let unit := scaled 1 4 x.exponent
  let low := if x.mantissa = Nat.pow 2 52 ∧ leastExponent < x.exponent then 4 * x.mantissa - 1
    else 4 * x.mantissa - 2
  let high := 4 * x.mantissa + 2
  let value := numerator * unit.2
  let lower := low * unit.1 * denominator
  let upper := high * unit.1 * denominator
  if x.mantissa % 2 = 0 then lower ≤ value && value ≤ upper
  else lower < value && value < upper

/-- `digits * 10 ^ power` as a fraction. -/
def decimalFraction (digits : Nat) (power : Int) : Nat × Nat :=
  (digits * Nat.pow 10 power.toNat, Nat.pow 10 (-power).toNat)

/-- The power of ten of the leading digit of a positive fraction below one: how many times it is
multiplied by ten until it reaches one. -/
def leadingZeros : Nat → Nat → Nat → Nat
  | 0, _, _ => 0
  | fuel + 1, numerator, denominator =>
    if denominator ≤ numerator then 0 else leadingZeros fuel (10 * numerator) denominator + 1

/-- The power of ten of the leading decimal digit of a positive fraction. -/
def leadingPower (numerator denominator : Nat) : Int :=
  if denominator ≤ numerator then (Nat.toDigits 10 (numerator / denominator)).length - 1
  else -(leadingZeros 400 numerator denominator : Nat)

/-- The neighbour of a positive double on the grid of multiples of `10 ^ power` that rounds back to
it; of two such neighbours the nearer, and of two equally near the even one. -/
def onGrid? (x : Binary64) (power : Int) : Option Nat :=
  let value := x.fraction
  let step := decimalFraction 1 power
  let numerator := value.1 * step.2
  let denominator := value.2 * step.1
  let fits digits :=
    let candidate := decimalFraction digits power
    roundsTo x candidate.1 candidate.2
  let best := nearest numerator denominator
  let below := numerator / denominator
  if fits best && best ≠ 0 then some best
  else if fits below && below ≠ 0 then some below
  else if fits (below + 1) then some (below + 1)
  else none

/-- Searches ever finer grids for the first decimal that rounds back to a positive double. -/
def shortestFrom (x : Binary64) (lead : Int) : Nat → Nat → Nat × Int
  | 0, _ => (x.mantissa, 0)
  | fuel + 1, places =>
    let power := lead - places
    match onGrid? x power with
    | some digits => (digits, power)
    | none => shortestFrom x lead fuel (places + 1)

/-- Drops the zeros at the end of a decimal and raises its power accordingly. -/
def dropZeros : Nat → Nat → Int → Nat × Int
  | 0, digits, power => (digits, power)
  | fuel + 1, digits, power =>
    if digits ≠ 0 ∧ digits % 10 = 0 then dropZeros fuel (digits / 10) (power + 1)
    else (digits, power)

/-- The decimal with the fewest digits that rounds back to a positive double, as digits and a power
of ten. -/
def shortest (x : Binary64) : Nat × Int :=
  let value := x.fraction
  let found := shortestFrom x (leadingPower value.1 value.2) 18 0
  dropZeros 400 found.1 found.2

/-- The text of a double. A magnitude from `1e-5` up to `1e16` is written with a point and no
exponent, others with one digit before the point and an exponent with its sign. -/
def text (x : Binary64) : String :=
  let sign := if x.negative then "-" else ""
  if x.mantissa = 0 then sign ++ "0.0"
  else
    let (value, power) := shortest x
    let digits := Nat.toDigits 10 value
    let point : Int := digits.length + power
    let body : List Char :=
      if 0 ≤ power ∧ point ≤ 16 then digits ++ List.replicate power.toNat '0' ++ ['.', '0']
      else if 0 < point ∧ point ≤ 16 then digits.take point.toNat ++ '.' :: digits.drop point.toNat
      else if -5 < point ∧ point ≤ 0 then
        ['0', '.'] ++ List.replicate (-point).toNat '0' ++ digits
      else
        let fraction := if digits.length = 1 then [] else '.' :: digits.drop 1
        let mark := if 0 < point then ['e', '+'] else ['e']
        digits.take 1 ++ fraction ++ mark ++ (toString (point - 1)).toList
    sign ++ String.ofList body

end Binary64

end KnowledgeGraph
