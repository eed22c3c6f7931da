import Dynarec.Text.Number
import Dynarec.Text.Printable

/-!
# Quoted text

Text from outside is quoted in messages: between double quotes, with quotes and backslashes escaped
by a backslash, common control characters by a letter, and all else that is not printable by its
number. Bytes that are not well-formed UTF-8 are shown one by one.

## Main definitions

* `Dynarec.Text.Piece`, `Dynarec.Text.pieces` — bytes as characters and stray bytes.
* `Dynarec.Text.quoteBytes`, `Dynarec.Text.quote` — quoted bytes and quoted text.
-/

set_option autoImplicit false

namespace Dynarec.Text

/-! ## Reading UTF-8 -/

/-- A character, or a byte that belongs to none. -/
inductive Piece where
  | char (c : Char)
  | stray (b : Byte)
  deriving DecidableEq, Repr

/-- The low six bits of a continuation byte. -/
def continuation? (b : Byte) : Option Nat :=
  if b.toNat / 64 = 2 then some (b.toNat % 64) else none

/-- The character with a code point of at least `least`, so that no shorter form exists. -/
def charOf? (least n : Nat) : Option Char :=
  if h : n.isValidChar then
    if least ≤ n then some (Char.ofNatAux n h) else none
  else none

/-- The character that bytes start with, and the number of bytes it takes. -/
def leadingChar? : List Byte → Option (Char × Nat)
  | [] => none
  | b :: rest =>
    let n := b.toNat
    if n < 0x80 then some (Char.ofNat n, 1)
    else if n / 32 = 6 then
      match rest with
      | b₁ :: _ => do
        let x ← continuation? b₁
        let c ← charOf? 0x80 (n % 32 * 64 + x)
        some (c, 2)
      | _ => none
    else if n / 16 = 14 then
      match rest with
      | b₁ :: b₂ :: _ => do
        let x ← continuation? b₁
        let y ← continuation? b₂
        let c ← charOf? 0x800 ((n % 16 * 64 + x) * 64 + y)
        some (c, 3)
      | _ => none
    else if n / 8 = 30 then
      match rest with
      | b₁ :: b₂ :: b₃ :: _ => do
        let x ← continuation? b₁
        let y ← continuation? b₂
        let z ← continuation? b₃
        let c ← charOf? 0x10000 (((n % 8 * 64 + x) * 64 + y) * 64 + z)
        some (c, 4)
      | _ => none
    else none

/-- Reads bytes as UTF-8, for at most `fuel` pieces. -/
def piecesWithin : Nat → List Byte → List Piece
  | 0, _ => []
  | _ + 1, [] => []
  | fuel + 1, b :: rest =>
    match leadingChar? (b :: rest) with
    | some (c, n) => .char c :: piecesWithin fuel ((b :: rest).drop n)
    | none => .stray b :: piecesWithin fuel rest

/-- Reads bytes as UTF-8. -/
def pieces (bytes : List Byte) : List Piece :=
  piecesWithin bytes.length bytes

/-! ## Quoting -/

/-- A backslash, a letter and a number in hexadecimal. -/
def numbered (letter : Char) (digits n : Nat) : List Char :=
  '\\' :: letter :: padded digits (Nat.toDigits 16 n)

/-- A character inside quotes. -/
def escaped (c : Char) : List Char :=
  if c = '"' ∨ c = '\\' then ['\\', c]
  else if isPrintable c then [c]
  else
    match c.toNat with
    | 7 => ['\\', 'a']
    | 8 => ['\\', 'b']
    | 9 => ['\\', 't']
    | 10 => ['\\', 'n']
    | 11 => ['\\', 'v']
    | 12 => ['\\', 'f']
    | 13 => ['\\', 'r']
    | n =>
      if n < 0x20 ∨ n = 0x7F then numbered 'x' 2 n
      else if n < 0x10000 then numbered 'u' 4 n
      else numbered 'U' 8 n

/-- A piece inside quotes. -/
def Piece.escaped : Piece → List Char
  | char c => Text.escaped c
  | stray b => numbered 'x' 2 b.toNat

/-- Characters between double quotes. -/
def inQuotes (cs : List Char) : String :=
  String.ofList ('"' :: cs ++ ['"'])

/-- Quoted bytes. -/
def quoteBytes (bytes : List Byte) : String :=
  inQuotes ((pieces bytes).flatMap Piece.escaped)

/-- Quoted text. -/
def quote (s : String) : String :=
  inQuotes (s.toList.flatMap escaped)

end Dynarec.Text
