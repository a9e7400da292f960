/-!
# The shortest decimal of a binary number

A finite binary number stands for an interval of reals: those that lie nearer to
it than to any other binary number, with the ends if its significand is even. Its
shortest decimal is the decimal of fewest digits in that interval; of two such
decimals the one nearer to the number, and of two equally near the even one. All
comparisons are made on natural numbers, so nothing is rounded on the way.
-/

namespace ShaderBlocks

/-- A positive binary number, `significand * 2 ^ exponent`. -/
structure BinaryNumber where
  /-- The significand. -/
  significand : Nat
  /-- The power of two. -/
  exponent : Int
  /-- The number below is only half as far away as the number above. -/
  narrowBelow : Bool
  deriving DecidableEq, Repr

/-- The magnitude that the bits of a finite 64-bit number encode. -/
def BinaryNumber.ofBits (bits : UInt64) : BinaryNumber :=
  let field := ((bits >>> 52) &&& 0x7FF).toNat
  let fraction := (bits &&& 0xFFFFFFFFFFFFF).toNat
  if field = 0 then ⟨fraction, -1074, false⟩
  else ⟨0x10000000000000 + fraction, (field : Int) - 1075, fraction == 0 && field > 1⟩

/-- A decimal number, `digits * 10 ^ exponent`. -/
structure DecimalNumber where
  /-- The digits, read as one number. -/
  digits : Nat
  /-- The power of ten. -/
  exponent : Int
  deriving DecidableEq, Repr

/-- What a unit of `10 ^ exponent` weighs beside a unit of a quarter of the binary
number's last place, as a fraction with the first part above the second. -/
def BinaryNumber.scales (number : BinaryNumber) (exponent : Int) : Nat × Nat :=
  let quarter := number.exponent - 2
  (Nat.pow 10 exponent.toNat * Nat.pow 2 (-quarter).toNat,
    Nat.pow 2 quarter.toNat * Nat.pow 10 (-exponent).toNat)

/-- The decimal lies in the interval that the binary number stands for. -/
def BinaryNumber.admits (number : BinaryNumber) (decimal : DecimalNumber) : Bool :=
  let (decimalUnit, quarterUnit) := number.scales decimal.exponent
  let position := decimal.digits * decimalUnit
  let low := (4 * number.significand - if number.narrowBelow then 1 else 2) * quarterUnit
  let high := (4 * number.significand + 2) * quarterUnit
  if number.significand % 2 = 0 then decide (low ≤ position ∧ position ≤ high)
  else decide (low < position ∧ position < high)

/-- The decimal with the given exponent that stands for the binary number, if there
is one: one of the two neighbours of the number among the multiples of the power of
ten. -/
def BinaryNumber.onGrid? (number : BinaryNumber) (exponent : Int) : Option DecimalNumber :=
  let (decimalUnit, quarterUnit) := number.scales exponent
  let exact := 4 * number.significand * quarterUnit
  let below : DecimalNumber := ⟨exact / decimalUnit, exponent⟩
  let above : DecimalNumber := ⟨exact / decimalUnit + 1, exponent⟩
  match number.admits below, number.admits above with
  | true, true =>
    let lower := exact % decimalUnit
    let upper := decimalUnit - lower
    if lower < upper then some below
    else if upper < lower then some above
    else if below.digits % 2 = 0 then some below
    else some above
  | true, false => some below
  | false, true => some above
  | false, false => none

/-- Try `steps` powers of ten downward from `exponent`. -/
def BinaryNumber.search? (number : BinaryNumber) :
    (steps : Nat) → (exponent : Int) → Option DecimalNumber
  | 0, _ => none
  | steps + 1, exponent =>
    match number.onGrid? exponent with
    | some decimal => some decimal
    | none => number.search? steps (exponent - 1)

/-- The binary number without what stands behind the binary point of its
significand. -/
def BinaryNumber.whole (number : BinaryNumber) : Nat :=
  number.significand * Nat.pow 2 number.exponent.toNat

/-- A power of ten above the binary number. -/
def BinaryNumber.ceilingExponent (number : BinaryNumber) : Int :=
  (number.whole.log2 / 3 + 1 : Nat)

/-- The shortest decimal of a binary number. Where no power of ten is fine enough
for the interval, the number itself is taken as a whole number. -/
def BinaryNumber.shortest (number : BinaryNumber) : DecimalNumber :=
  let top := number.ceilingExponent
  (number.search? (top + 400).toNat top).getD ⟨number.whole, 0⟩

end ShaderBlocks
