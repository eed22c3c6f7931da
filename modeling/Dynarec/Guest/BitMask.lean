import Dynarec.Word

/-!
# Bit masks of logical immediates

Logical instructions carry their immediate as three small fields. They describe an element of
2, 4, 8, 16, 32 or 64 bits that holds one run of ones, how far that run is rotated, and the mask
is the element repeated over the register.

## Main definitions

* `Dynarec.Guest.BitMask.sizeLog?` — the binary logarithm of the element size.
* `Dynarec.Guest.BitMask.element` — one element: a rotated run of ones.
* `Dynarec.Guest.BitMask.spread` — an element repeated by doubling.
* `Dynarec.Guest.BitMask.expand` — the mask of three fields.
-/

set_option autoImplicit false

namespace Dynarec.Guest.BitMask

/-- The binary logarithm of the element size: the position of the highest set bit in the size bit
followed by the complement of the six bits of `imms`. Sizes below two bits are reserved. -/
def sizeLog? (n imms : Nat) : Option Nat :=
  let sizeBits := n % 2 * 64 + (63 - imms % 64)
  if sizeBits < 2 then none else some sizeBits.log2

/-- An element of `size` bits: `run` ones, rotated right by `rotation` inside the element. -/
def element (size run rotation : Nat) : Word :=
  let ones : Word := (BitVec.allOnes run).setWidth 64
  (ones >>> rotation ||| ones <<< (size - rotation)) &&& (BitVec.allOnes size).setWidth 64

/-- Repeats the low `size` bits of `value` by doubling until `width` bits are covered, at most
`rounds` times. -/
def spread (width : Nat) : Nat → Nat → Word → Word
  | 0, _, value => value
  | rounds + 1, size, value =>
    if size < width then spread width rounds (2 * size) (value ||| value <<< size) else value

/-- The mask that the fields stand for in a register of the given width. Reserved are elements
below two bits and elements of ones only. -/
def expand (n imms immr width : Nat) : Option Word := do
  let log ← sizeLog? n imms
  let size := 1 <<< log
  let last := imms % size
  if last + 1 = size then none
  else
    let mask := spread width (6 - log) size (element size (last + 1) (immr % size))
    some (if width = 32 then mask &&& 0xFFFFFFFF else mask)

end Dynarec.Guest.BitMask
