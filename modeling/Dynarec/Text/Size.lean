import Dynarec.Text.Number

/-!
# Text of sizes

A size in bytes is divided by the base of its unit system while it is at least the base, in binary
floating-point numbers of 53 significant bits, and the quotient is written with at most four
significant digits and no trailing zeros.

## Main definitions

* `Dynarec.Text.Binary` — a non-negative binary fraction.
* `Dynarec.Text.Binary.ofRatio` — the nearest such fraction with 53 significant bits.
* `Dynarec.Text.Binary.fourDigits` — four significant decimal digits.
* `Dynarec.Text.Units` — a unit system.
* `Dynarec.Text.decimalSize`, `Dynarec.Text.binarySize` — sizes in steps of 1000 and of 1024.
-/

set_option autoImplicit false

namespace Dynarec.Text

/-! ## Binary fractions -/

/-- The number `mantissa * 2 ^ exponent`. -/
structure Binary where
  mantissa : Nat
  exponent : Int
  deriving DecidableEq, Repr

/-- The quotient rounded to the nearest number, ties to the even one. -/
def roundDiv (num den : Nat) : Nat :=
  let q := num / den
  let twice := 2 * (num % den)
  if twice < den then q
  else if den < twice then q + 1
  else if q % 2 = 0 then q else q + 1

namespace Binary

/-- `num / den * 2 ^ (-shift)` as a pair of numerator and denominator. -/
def scale (num den : Nat) (shift : Int) : Nat × Nat :=
  if 0 ≤ shift then (num <<< shift.toNat, den) else (num, den <<< (-shift).toNat)

/-- The nearest fraction with 53 significant bits to `num / den * 2 ^ exponent`. -/
def ofRatio (num den : Nat) (exponent : Int) : Binary :=
  if num = 0 then ⟨0, 0⟩
  else
    let guess : Int := 53 + den.log2 - num.log2
    let (n, d) := scale num den guess
    let shift := if 0x20000000000000 ≤ n / d then guess - 1 else guess
    let (n, d) := scale num den shift
    ⟨roundDiv n d, exponent - shift⟩

/-- The nearest fraction with 53 significant bits to a number. -/
def ofNat (n : Nat) : Binary :=
  ofRatio n 1 0

/-- Division by a number, rounded to 53 significant bits. -/
def div (b : Binary) (d : Nat) : Binary :=
  ofRatio b.mantissa d b.exponent

/-- Whether a fraction is at least a number. -/
def atLeast (b : Binary) (n : Nat) : Bool :=
  let (num, den) := scale b.mantissa 1 b.exponent
  n * den ≤ num

/-- Removes zeros from the end of decimals. -/
def trimZeros (digits : List Char) : List Char :=
  (digits.reverse.dropWhile (· == '0')).reverse

/-- A fraction below ten thousand with at most four significant digits, rounded to nearest with
ties to even, without trailing zeros. -/
def fourDigits (b : Binary) : String :=
  let (num, den) := scale b.mantissa 1 b.exponent
  let places :=
    if b.atLeast 1000 then 0
    else if b.atLeast 100 then 1
    else if b.atLeast 10 then 2
    else 3
  let one := Nat.pow 10 places
  let units := roundDiv (num * one) den
  let whole := Nat.toDigits 10 (units / one)
  let decimals := trimZeros (padded places (Nat.toDigits 10 (units % one)))
  String.ofList <| match decimals with
    | [] => whole
    | _ => if places = 0 then whole else whole ++ '.' :: decimals

end Binary

/-! ## Units -/

/-- A unit system: the step from one unit to the next, and the names of the units. -/
structure Units where
  base : Nat
  first : String
  more : List String

/-- Divides down to the first unit in which the number is below the base. -/
def Units.write (u : Units) (value : Binary) (unit : String) : List String → String
  | [] => value.fourDigits ++ unit
  | next :: rest =>
    if value.atLeast u.base then u.write (value.div u.base) next rest
    else value.fourDigits ++ unit

/-- Units in steps of a thousand. -/
def decimalUnits : Units where
  base := 1000
  first := "B"
  more := ["kB", "MB", "GB", "TB", "PB", "EB", "ZB", "YB"]

/-- Units in steps of 1024. -/
def binaryUnits : Units where
  base := 1024
  first := "B"
  more := ["KiB", "MiB", "GiB", "TiB", "PiB", "EiB", "ZiB", "YiB"]

/-- A size in steps of a thousand. -/
def decimalSize (n : Nat) : String :=
  decimalUnits.write (.ofNat n) decimalUnits.first decimalUnits.more

/-- A size in steps of 1024. -/
def binarySize (n : Nat) : String :=
  binaryUnits.write (.ofNat n) binaryUnits.first binaryUnits.more

end Dynarec.Text
