import Dynarec.Settings.Number

/-!
# JSON documents

A configuration file is a JSON document. Numbers keep their text, so that whoever uses them can
tell integers from other numbers. Nesting is limited.

## Main definitions

* `Dynarec.Settings.Json` — a JSON value.
* `Dynarec.Settings.Json.parse?` — reading a document.
-/

set_option autoImplicit false

namespace Dynarec.Settings

/-- A JSON value. -/
inductive Json where
  | null
  | bool (b : Bool)
  /-- A number, as it is written. -/
  | number (text : List Char)
  | string (s : String)
  | array (items : List Json)
  | object (members : List (String × Json))

namespace Json

/-! ## Tokens -/

/-- Whether a character may stand between tokens. -/
def isBlank (c : Char) : Bool :=
  c == ' ' || c == '\t' || c == '\n' || c == '\r'

/-- The text without blanks in front. -/
def skipBlanks (cs : List Char) : List Char :=
  cs.dropWhile isBlank

/-- Whether a character is a decimal digit. -/
def isDigit (c : Char) : Bool :=
  '0' ≤ c && c ≤ '9'

/-- Cuts off one or more digits. -/
def digits? (cs : List Char) : Option (List Char × List Char) :=
  match cs.takeWhile isDigit with
  | [] => none
  | ds => some (ds, cs.dropWhile isDigit)

/-- Cuts off the whole part of a number: zero, or digits that do not start with zero. -/
def whole? : List Char → Option (List Char × List Char)
  | '0' :: rest => some (['0'], rest)
  | cs => digits? cs

/-- Cuts off the decimals of a number, if there are any. -/
def decimals? : List Char → Option (List Char × List Char)
  | '.' :: rest => (digits? rest).map fun (ds, rest) => ('.' :: ds, rest)
  | rest => some ([], rest)

/-- Cuts off the digits of an exponent behind its sign. -/
def exponentDigits? (e : Char) : List Char → Option (List Char × List Char)
  | '+' :: rest => (digits? rest).map fun (ds, rest) => (e :: '+' :: ds, rest)
  | '-' :: rest => (digits? rest).map fun (ds, rest) => (e :: '-' :: ds, rest)
  | rest => (digits? rest).map fun (ds, rest) => (e :: ds, rest)

/-- Cuts off the exponent of a number, if there is one. -/
def exponent? : List Char → Option (List Char × List Char)
  | 'e' :: rest => exponentDigits? 'e' rest
  | 'E' :: rest => exponentDigits? 'E' rest
  | rest => some ([], rest)

/-- Cuts off an unsigned number. -/
def unsigned? (cs : List Char) : Option (List Char × List Char) := do
  let (whole, rest) ← whole? cs
  let (decimals, rest) ← decimals? rest
  let (exponent, rest) ← exponent? rest
  some (whole ++ decimals ++ exponent, rest)

/-- Cuts off a number. -/
def number? : List Char → Option (List Char × List Char)
  | '-' :: rest => (unsigned? rest).map fun (n, rest) => ('-' :: n, rest)
  | cs => unsigned? cs

/-! ## Strings -/

/-- The value of a hexadecimal digit. -/
def hexValue? (c : Char) : Option Nat :=
  match digitValue? c with
  | some d => if d < 16 then some d else none
  | none => none

/-- The number in four hexadecimal digits. -/
def hex4? : List Char → Option (Nat × List Char)
  | a :: b :: c :: d :: rest => do
    let a ← hexValue? a
    let b ← hexValue? b
    let c ← hexValue? c
    let d ← hexValue? d
    some (((a * 16 + b) * 16 + c) * 16 + d, rest)
  | _ => none

/-- The code unit of a complete escape at the start of text. -/
def unit? : List Char → Option (Nat × List Char)
  | '\\' :: 'u' :: rest => hex4? rest
  | _ => none

/-- Whether a code unit is the first half of a pair. -/
def isHigh (u : Nat) : Bool :=
  0xD800 ≤ u && u < 0xDC00

/-- Whether a code unit is the second half of a pair. -/
def isLow (u : Nat) : Bool :=
  0xDC00 ≤ u && u < 0xE000

/-- The character of a code unit, with the second half of its pair if that follows. A half without
its other half becomes the replacement character. -/
def unitChar (u : Nat) (rest : List Char) : Char × List Char :=
  if isHigh u then
    match unit? rest with
    | some (v, more) =>
      if isLow v then (Char.ofNat (0x10000 + (u - 0xD800) * 0x400 + (v - 0xDC00)), more)
      else (Char.ofNat 0xFFFD, rest)
    | none => (Char.ofNat 0xFFFD, rest)
  else if isLow u then (Char.ofNat 0xFFFD, rest)
  else (Char.ofNat u, rest)

/-- The character of an escape with one letter. -/
def letterEscape? : Char → Option Char
  | '"' => some '"'
  | '\\' => some '\\'
  | '/' => some '/'
  | 'b' => some (Char.ofNat 8)
  | 'f' => some (Char.ofNat 12)
  | 'n' => some '\n'
  | 'r' => some '\r'
  | 't' => some '\t'
  | _ => none

/-- Reads a string behind its opening quote, for at most `fuel` characters. -/
def stringTail? : Nat → List Char → Option (List Char × List Char)
  | 0, _ => none
  | _ + 1, [] => none
  | _ + 1, '"' :: rest => some ([], rest)
  | fuel + 1, '\\' :: 'u' :: rest => do
    let (u, rest) ← hex4? rest
    let (c, rest) := unitChar u rest
    let (cs, rest) ← stringTail? fuel rest
    some (c :: cs, rest)
  | fuel + 1, '\\' :: e :: rest => do
    let c ← letterEscape? e
    let (cs, rest) ← stringTail? fuel rest
    some (c :: cs, rest)
  | fuel + 1, c :: rest =>
    if c.toNat < 0x20 ∨ c = '\\' then none
    else do
      let (cs, rest) ← stringTail? fuel rest
      some (c :: cs, rest)

/-- Reads a string behind its opening quote. -/
def string? (cs : List Char) : Option (String × List Char) :=
  (stringTail? (cs.length + 1) cs).map fun (s, rest) => (String.ofList s, rest)

/-! ## Values -/

/-- How deep values may be nested. -/
def maxDepth : Nat := 10000

mutual

/-- Reads a value nested at most `depth` deep. -/
def value? : Nat → Nat → List Char → Option (Json × List Char)
  | 0, _, _ => none
  | fuel + 1, depth, cs =>
    match skipBlanks cs with
    | 'n' :: 'u' :: 'l' :: 'l' :: rest => some (.null, rest)
    | 't' :: 'r' :: 'u' :: 'e' :: rest => some (.bool true, rest)
    | 'f' :: 'a' :: 'l' :: 's' :: 'e' :: rest => some (.bool false, rest)
    | '"' :: rest => (string? rest).map fun (s, rest) => (.string s, rest)
    | '[' :: rest =>
      if depth = 0 then none
      else
        match skipBlanks rest with
        | ']' :: rest => some (.array [], rest)
        | rest => (items? fuel (depth - 1) rest).map fun (xs, rest) => (.array xs, rest)
    | '{' :: rest =>
      if depth = 0 then none
      else
        match skipBlanks rest with
        | '}' :: rest => some (.object [], rest)
        | rest => (members? fuel (depth - 1) rest).map fun (ms, rest) => (.object ms, rest)
    | rest => (number? rest).map fun (n, rest) => (.number n, rest)

/-- Reads the items of an array up to its closing bracket. -/
def items? : Nat → Nat → List Char → Option (List Json × List Char)
  | 0, _, _ => none
  | fuel + 1, depth, cs => do
    let (x, rest) ← value? fuel depth cs
    match skipBlanks rest with
    | ',' :: rest =>
      let (xs, rest) ← items? fuel depth rest
      some (x :: xs, rest)
    | ']' :: rest => some ([x], rest)
    | _ => none

/-- Reads the members of an object up to its closing brace. -/
def members? : Nat → Nat → List Char → Option (List (String × Json) × List Char)
  | 0, _, _ => none
  | fuel + 1, depth, cs =>
    match skipBlanks cs with
    | '"' :: rest => do
      let (key, rest) ← string? rest
      match skipBlanks rest with
      | ':' :: rest =>
        let (x, rest) ← value? fuel depth rest
        match skipBlanks rest with
        | ',' :: rest =>
          let (ms, rest) ← members? fuel depth rest
          some ((key, x) :: ms, rest)
        | '}' :: rest => some ([(key, x)], rest)
        | _ => none
      | _ => none
    | _ => none

end

/-- Reads a document: one value between blanks. Every value takes at least one character, so twice
their number is enough fuel. -/
def parse? (text : String) : Option Json :=
  let cs := text.toList
  match value? (2 * cs.length + 1) maxDepth cs with
  | some (x, rest) => if (skipBlanks rest).isEmpty then some x else none
  | none => none

end Json

end Dynarec.Settings
