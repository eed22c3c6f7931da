import Dynarec.Word

/-!
# Guest flags and conditions

The guest has four condition flags. Conditional instructions carry a condition code; codes come
in pairs, the odd code of a pair being the negation of the even one, except that the last pair
always holds.

## Main definitions

* `Dynarec.Guest.Flags` — negative, zero, carry and overflow, with their packed form.
* `Dynarec.Guest.Condition` — a condition code.
* `Dynarec.Guest.Condition.holds` — when a condition holds.
* `Dynarec.Guest.Condition.table` — the packed flags that satisfy a condition, as a bit set.
-/

set_option autoImplicit false

namespace Dynarec.Guest

/-! ## Flags -/

/-- The guest condition flags. They stand in four bits of their cell, and this record is what
those bits mean. -/
structure Flags where
  negative : Bool
  zero : Bool
  carry : Bool
  overflow : Bool
  deriving DecidableEq, Repr

namespace Flags

/-- Flags from their nibble: negative in bit 3 down to overflow in bit 0. -/
def ofNibble (b : BitVec 4) : Flags where
  negative := b.getLsbD 3
  zero := b.getLsbD 2
  carry := b.getLsbD 1
  overflow := b.getLsbD 0

/-- The nibble of flags, with negative in front. -/
def nibble (f : Flags) : BitVec 4 :=
  BitVec.ofBool f.negative ++ BitVec.ofBool f.zero ++ BitVec.ofBool f.carry ++
    BitVec.ofBool f.overflow

/-- The lowest bit of the flags inside their register; the other three stand right above it. -/
def shift : Nat := 28

/-- Flags as their register holds them: the nibble in bits 28 to 31, all else clear. -/
def toWord (f : Flags) : Word :=
  f.nibble.setWidth 64 <<< shift

/-- The flags in bits 28 to 31 of a register, whatever its other bits are. -/
def ofWord (w : Word) : Flags :=
  ofNibble ((w >>> shift).setWidth 4)

/-- Flags are read back from their nibble. -/
@[simp] theorem ofNibble_nibble (f : Flags) : ofNibble f.nibble = f := by
  rcases f with ⟨n, z, c, v⟩
  cases n <;> cases z <;> cases c <;> cases v <;> rfl

/-- Flags are read back from the word of their cell. -/
@[simp] theorem ofWord_toWord (f : Flags) : ofWord f.toWord = f := by
  rcases f with ⟨n, z, c, v⟩
  cases n <;> cases z <;> cases c <;> cases v <;> decide

end Flags

/-! ## Conditions -/

/-- A condition code. Only codes below 16 have an encoding. -/
structure Condition where
  code : Byte
  deriving DecidableEq, Repr

namespace Condition

/-- Holds when the zero flag is set. -/
def eq : Condition := ⟨0⟩

/-- Holds when the zero flag is clear. -/
def ne : Condition := ⟨1⟩

/-- Whether the code is beyond the pairs that test flags. Such a condition holds whatever the
flags are, the one with the odd code too. -/
def isAlways (c : Condition) : Bool :=
  14 ≤ c.code.toNat

/-- The name of a condition; only the low four bits of the code matter. -/
def name (c : Condition) : String :=
  match c.code.toNat % 16 with
  | 0 => "eq" | 1 => "ne" | 2 => "cs" | 3 => "cc"
  | 4 => "mi" | 5 => "pl" | 6 => "vs" | 7 => "vc"
  | 8 => "hi" | 9 => "ls" | 10 => "ge" | 11 => "lt"
  | 12 => "gt" | 13 => "le" | 14 => "al" | _ => "nv"

/-- The opposite condition. Conditions that always hold have none and are kept. -/
def invert (c : Condition) : Condition :=
  if c.isAlways then c else ⟨c.code ^^^ 1⟩

/-- Whether a condition holds under the given flags. -/
def holds (c : Condition) (f : Flags) : Bool :=
  let negated := c.code.getLsbD 0
  match c.code.toNat / 2 with
  | 0 => f.zero != negated
  | 1 => f.carry != negated
  | 2 => f.negative != negated
  | 3 => f.overflow != negated
  | 4 => (f.carry && !f.zero) != negated
  | 5 => (f.negative == f.overflow) != negated
  | 6 => (!f.zero && f.negative == f.overflow) != negated
  | _ => true

/-- The set of flag nibbles that satisfy a condition: bit `i` stands for the nibble `i`. Compiled
code looks the flags up in it. -/
def table (c : Condition) : Word :=
  (List.range 16).foldl
    (fun t i => if c.holds (Flags.ofNibble (BitVec.ofNat 4 i)) then t ||| BitVec.twoPow 64 i else t)
    0

end Condition

end Dynarec.Guest
