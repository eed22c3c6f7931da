import Dynarec.Word

/-!
# Text of numbers

Addresses and words are written in lower-case hexadecimal after `0x`, without leading zeros unless
a number of digits is asked for. A negative number carries its sign in front of the `0x`.

## Main definitions

* `Dynarec.Text.hex`, `Dynarec.Text.hexInt`, `Dynarec.Text.hex8` — hexadecimal with `0x`.
* `Dynarec.Text.hexBytes` — two digits a byte.
* `Dynarec.Text.padded` — zeros in front up to a number of digits.
-/

set_option autoImplicit false

namespace Dynarec.Text

/-- A digit string with zeros in front, up to `width` characters. -/
def padded (width : Nat) (digits : List Char) : List Char :=
  List.replicate (width - digits.length) '0' ++ digits

/-- Hexadecimal after `0x`, without leading zeros. -/
def hex (n : Nat) : String :=
  "0x" ++ String.ofList (Nat.toDigits 16 n)

/-- Hexadecimal after `0x`, at least eight digits. -/
def hex8 (n : Nat) : String :=
  "0x" ++ String.ofList (padded 8 (Nat.toDigits 16 n))

/-- Hexadecimal of a signed number: the sign stands in front of `0x`. -/
def hexInt (i : Int) : String :=
  if i < 0 then "-" ++ hex i.natAbs else hex i.toNat

/-- Hexadecimal of a word, read as unsigned. -/
def hexWord (w : Word) : String :=
  hex w.toNat

/-- Decimal digits of a natural number. -/
def decimal (n : Nat) : String :=
  String.ofList (Nat.toDigits 10 n)

/-- Decimal digits of a signed number. -/
def decimalInt (i : Int) : String :=
  if i < 0 then "-" ++ decimal i.natAbs else decimal i.toNat

/-- Binary digits, at least four. -/
def binary4 (n : Nat) : String :=
  String.ofList (padded 4 (Nat.toDigits 2 n))

/-- Bytes as pairs of hexadecimal digits. -/
def hexBytes (bytes : List Byte) : String :=
  String.ofList (bytes.flatMap fun b => padded 2 (Nat.toDigits 16 b.toNat))

end Dynarec.Text
