import CommandLine.Number.Integer

/-! # Binary floating point numbers as decimal text

    A finite double is `m · 2 ^ q` for a whole number `m`. It is written with the fewest decimal
    digits that are read back as the same double, and of those with the digits nearest to it, always
    in positional notation. A text is read by rounding its exact decimal value to the nearest
    double. -/

namespace CommandLine.Number

/-- A positive number `mantissa · 2 ^ exponent` with the distance to its neighbours. Below a power
    of two the next double is only half as far away; `narrow` says that this is so. -/
structure Binary where
  mantissa : Nat
  exponent : Int
  narrow : Bool

/-- A decimal number `digits · 10 ^ exponent`. -/
structure Decimal where
  digits : Nat
  exponent : Int

/-- The magnitude of a finite double from the bits after its sign, if it is not zero. -/
def Binary.ofBits (bits : Nat) : Option Binary :=
  let fraction := bits % Nat.pow 2 52
  let exponent := bits / Nat.pow 2 52 % Nat.pow 2 11
  if exponent = 0 then
    if fraction = 0 then none else some ⟨fraction, -1074, false⟩
  else some ⟨Nat.pow 2 52 + fraction, Int.ofNat exponent - 1075, fraction == 0 && 1 < exponent⟩

/-- The three numbers between which every real rounds to `b`, as fractions over one denominator: the
    lower end, the number itself, the upper end, and the denominator. -/
def Binary.interval (b : Binary) : Nat × Nat × Nat × Nat :=
  let scale := Nat.pow 2 (b.exponent - 2).toNat
  let below := if b.narrow then 1 else 2
  ((4 * b.mantissa - below) * scale, 4 * b.mantissa * scale, (4 * b.mantissa + 2) * scale,
    Nat.pow 2 (2 - b.exponent).toNat)

/-- The decimal exponent of the leading digit of a fraction: the greatest `e` with
    `10 ^ e ≤ numerator / denominator`, for a fraction of at least `10 ^ -fuel`. -/
def leadingExponent (fuel numerator denominator : Nat) : Int :=
  if denominator ≤ numerator then (digits (numerator / denominator)).length - 1
  else match fuel with
    | 0 => 0
    | fuel + 1 => leadingExponent fuel (10 * numerator) denominator - 1

/-- The nearest decimal of the grid `10 ^ exponent` that rounds to `b`, if there is one, and of two
    equally near ones the greater. The ends of the interval round to `b` when its mantissa is
    even. -/
def Binary.onGrid (b : Binary) (exponent : Int) : Option Decimal :=
  let (low, value, high, denominator) := b.interval
  let up := Nat.pow 10 (-exponent).toNat
  let unit := denominator * Nat.pow 10 exponent.toNat
  let within (d : Nat) : Bool :=
    if b.mantissa % 2 = 0 then low * up ≤ d * unit && d * unit ≤ high * up
    else low * up < d * unit && d * unit < high * up
  let floor := value * up / unit
  let floorIsNearer := value * up - floor * unit < (floor + 1) * unit - value * up
  if within floor && within (floor + 1) then
    some ⟨if floorIsNearer then floor else floor + 1, exponent⟩
  else if within floor then some ⟨floor, exponent⟩
  else if within (floor + 1) then some ⟨floor + 1, exponent⟩
  else none

/-- The decimal with the fewest digits that rounds to `b`. The search begins one place above the
    leading digit, for a power of ten that is just above `b`. Seventeen digits always suffice. -/
def Binary.shortest (b : Binary) : Decimal :=
  let (_, value, _, denominator) := b.interval
  let leading := leadingExponent 400 value denominator
  ((List.range 18).findSome? fun places => b.onGrid (leading + 1 - Int.ofNat places)).getD ⟨0, 0⟩

/-- A decimal in positional notation. -/
def Decimal.positional (d : Decimal) : List Char :=
  let shown := Number.digits d.digits
  if 0 ≤ d.exponent then shown ++ List.replicate d.exponent.toNat '0'
  else
    let places := (-d.exponent).toNat
    let padded := List.replicate (places + 1 - shown.length) '0' ++ shown
    padded.take (padded.length - places) ++ '.' :: padded.drop (padded.length - places)

/-- The decimal text of a finite double: the fewest digits that read back, in positional
    notation. -/
def showReal (x : Float) : String :=
  let bits := x.toBits.toNat
  let magnitude := match Binary.ofBits bits with
    | none => ['0']
    | some b => b.shortest.positional
  String.ofList (if bits < Nat.pow 2 63 then magnitude else '-' :: magnitude)

/-- The double nearest to `mantissa · 10 ^ exponent`. -/
def nearestReal (mantissa : Nat) (exponent : Int) : Float :=
  let size := (digits mantissa).length + exponent
  if mantissa = 0 || size < -400 then 0
  else if 400 < size then 1 / 0
  else Float.ofScientific mantissa (exponent < 0) exponent.natAbs

/-- The value of an exponent part: nothing, or a mark followed by a signed number. -/
def readExponent : List Char → Option Int
  | [] => some 0
  | c :: cs => if c = 'e' || c = 'E' then readSigned cs else none

/-- The double that unsigned decimal characters spell: digits with at most one point among them, and
    an exponent. -/
def readMagnitude (cs : List Char) : Option Float :=
  let whole := cs.takeWhile Char.isDigit
  let afterWhole := cs.dropWhile Char.isDigit
  let fraction := match afterWhole with
    | '.' :: rest => rest.takeWhile Char.isDigit
    | _ => []
  let afterFraction := match afterWhole with
    | '.' :: rest => rest.dropWhile Char.isDigit
    | rest => rest
  if whole.isEmpty && fraction.isEmpty then none
  else (readExponent afterFraction).map fun exponent =>
    nearestReal (ofDigits (whole ++ fraction)) (exponent - fraction.length)

/-- The double that a text spells in decimal. A value beyond all finite doubles is infinite. -/
def readReal (text : String) : Option Float :=
  match text.toList with
  | '-' :: cs => (readMagnitude cs).map fun x => -x
  | '+' :: cs => readMagnitude cs
  | cs => readMagnitude cs

end CommandLine.Number
