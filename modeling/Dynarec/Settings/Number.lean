import Dynarec.Word

/-!
# Reading numbers and truth values

Integers from the command line may carry a sign, a base mark and underscores between digits;
integers from the environment are decimal with an optional sign. Both are 64-bit numbers. Reading
stops at the first character that is no digit, or at the first digit that makes the number too
large for 64 bits, whichever comes first.

## Main definitions

* `Dynarec.Settings.NumberError` — why text is no number.
* `Dynarec.Settings.readInt`, `Dynarec.Settings.readDecimal` — the two kinds of integers.
* `Dynarec.Settings.readBool?` — truth values.
-/

set_option autoImplicit false

namespace Dynarec.Settings

/-- Why text is no number. -/
inductive NumberError where
  | malformed
  | range
  deriving DecidableEq, Repr

/-- The lower-case letter of an ASCII letter. -/
def lowerAscii (c : Char) : Char :=
  if 'A' ≤ c ∧ c ≤ 'Z' then Char.ofNat (c.toNat + 32) else c

/-- The value of a digit in any base up to 36. -/
def digitValue? (c : Char) : Option Nat :=
  let l := lowerAscii c
  if '0' ≤ c ∧ c ≤ '9' then some (c.toNat - '0'.toNat)
  else if 'a' ≤ l ∧ l ≤ 'z' then some (l.toNat - 'a'.toNat + 10)
  else none

/-- Reads digits onto an accumulated 64-bit number; underscores are skipped where they are
allowed. -/
def readDigits (base : Nat) (underscores : Bool) (acc : Nat) : List Char → Except NumberError Nat
  | [] => .ok acc
  | c :: rest =>
    if c = '_' ∧ underscores then readDigits base underscores acc rest
    else
      match digitValue? c with
      | none => .error .malformed
      | some d =>
        if base ≤ d then .error .malformed
        else if 0x10000000000000000 ≤ acc * base + d then .error .range
        else readDigits base underscores (acc * base + d) rest

/-- The base of a number and the digits behind its mark. A zero in front of digits means base
eight. -/
def splitBase : List Char → Nat × List Char
  | '0' :: mark :: d :: rest =>
    match lowerAscii mark with
    | 'b' => (2, d :: rest)
    | 'o' => (8, d :: rest)
    | 'x' => (16, d :: rest)
    | _ => (8, mark :: d :: rest)
  | '0' :: rest => (8, rest)
  | cs => (10, cs)

/-- Where underscores stand relative to digits. -/
inductive Last where
  | start | digit | underscore | other
  deriving DecidableEq, Repr

/-- Whether every underscore stands between digits; letters are digits only in base 16. -/
def underscoresFit (hex : Bool) : Last → List Char → Bool
  | last, [] => last != .underscore
  | last, c :: rest =>
    let l := lowerAscii c
    if ('0' ≤ c ∧ c ≤ '9') ∨ (hex ∧ 'a' ≤ l ∧ l ≤ 'f') then underscoresFit hex .digit rest
    else if c = '_' then last == .digit && underscoresFit hex .underscore rest
    else last != .underscore && underscoresFit hex .other rest

/-- Whether the underscores of an unsigned number are well placed; a base mark counts as a
digit. -/
def underscoresOk : List Char → Bool
  | '0' :: mark :: rest =>
    match lowerAscii mark with
    | 'b' => underscoresFit false .digit rest
    | 'o' => underscoresFit false .digit rest
    | 'x' => underscoresFit true .digit rest
    | _ => underscoresFit false .start ('0' :: mark :: rest)
  | cs => underscoresFit false .start cs

/-- Reads an unsigned number with an optional base mark and underscores. -/
def readMarked (cs : List Char) : Except NumberError Nat :=
  if cs.isEmpty then .error .malformed
  else do
    let (base, digits) := splitBase cs
    let n ← readDigits base true 0 digits
    if cs.contains '_' ∧ !underscoresOk cs then .error .malformed else .ok n

/-- Reads an unsigned decimal number. -/
def readPlain (cs : List Char) : Except NumberError Nat :=
  if cs.isEmpty then .error .malformed else readDigits 10 false 0 cs

/-- Reads an optional sign and a number behind it, as a signed 64-bit number. -/
def readSigned (unsigned : List Char → Except NumberError Nat) (cs : List Char) :
    Except NumberError Int :=
  match cs with
  | '-' :: rest => do
    let n ← unsigned rest
    if 0x8000000000000000 < n then .error .range else .ok (-(n : Int))
  | '+' :: rest => positive rest
  | rest => positive rest
where
  /-- Reads a number without a sign. -/
  positive (rest : List Char) : Except NumberError Int := do
    let n ← unsigned rest
    if 0x8000000000000000 ≤ n then .error .range else .ok n

/-- Reads an integer with optional sign, base mark and underscores. -/
def readInt (s : String) : Except NumberError Int :=
  readSigned readMarked s.toList

/-- Reads a decimal integer with an optional sign. -/
def readDecimal (s : String) : Except NumberError Int :=
  readSigned readPlain s.toList

/-- Reads a truth value. -/
def readBool? (s : String) : Option Bool :=
  if ["1", "t", "T", "true", "TRUE", "True"].contains s then some true
  else if ["0", "f", "F", "false", "FALSE", "False"].contains s then some false
  else none

end Dynarec.Settings
