/-!
# Bytes, words and instruction words

Guest and host state is made of 64-bit words, both memories are made of bytes, and guest code is
made of 32-bit instruction words. Numbers cross between words and bytes in little-endian order.

## Main definitions

* `Dynarec.Byte`, `Dynarec.Word`, `Dynarec.Opcode` — the three sizes of bit vectors in use.
* `Dynarec.littleEndian` — the bytes of a number, least significant byte first.
* `Dynarec.ofLittleEndian` — the number that such bytes spell.
* `Dynarec.fitsInt8`, `Dynarec.fitsInt32` — signed ranges.
-/

set_option autoImplicit false

namespace Dynarec

/-- One byte of guest memory or of host code. -/
abbrev Byte := BitVec 8

/-- One guest or host register, or an address. Arithmetic wraps. -/
abbrev Word := BitVec 64

/-- One guest instruction word. -/
abbrev Opcode := BitVec 32

/-- The `n` low bytes of a number, least significant byte first. -/
def littleEndian : Nat → Nat → List Byte
  | 0, _ => []
  | n + 1, v => BitVec.ofNat 8 v :: littleEndian n (v / 256)

/-- The number spelled by bytes, least significant byte first. -/
def ofLittleEndian : List Byte → Nat
  | [] => 0
  | b :: bs => b.toNat + 256 * ofLittleEndian bs

/-- A number is spelled by as many bytes as are asked for. -/
@[simp] theorem length_littleEndian (n v : Nat) : (littleEndian n v).length = n := by
  induction n generalizing v with
  | zero => rfl
  | succ n ih => simp [littleEndian, ih]

/-- Reading back the `n` low bytes of a number gives the number modulo
the `n`th power of 256. -/
theorem ofLittleEndian_littleEndian (n v : Nat) :
    ofLittleEndian (littleEndian n v) = v % Nat.pow 256 n := by
  induction n generalizing v with
  | zero => simp [littleEndian, ofLittleEndian, Nat.mod_one]
  | succ n ih =>
    simp only [littleEndian, ofLittleEndian, ih, BitVec.toNat_ofNat]
    rw [show Nat.pow 256 (n + 1) = 256 * Nat.pow 256 n from Nat.mul_comm _ _, Nat.mod_mul]

/-- The number that `n` bytes spell is below the `n`th power of 256. -/
theorem ofLittleEndian_lt (l : List Byte) : ofLittleEndian l < Nat.pow 256 l.length := by
  induction l with
  | nil => exact Nat.one_pos
  | cons b l ih =>
    have hb := b.isLt
    have hpow : Nat.pow 256 (l.length + 1) = 256 * Nat.pow 256 l.length := Nat.mul_comm _ _
    rw [ofLittleEndian, List.length_cons, hpow]
    omega

/-- Whether a number is a signed 8-bit number. -/
def fitsInt8 (v : Int) : Bool :=
  -128 ≤ v ∧ v ≤ 127

/-- Whether a number is a signed 32-bit number. -/
def fitsInt32 (v : Int) : Bool :=
  -2147483648 ≤ v ∧ v ≤ 2147483647

/-- The signed 64-bit number congruent to `v`: where two's complement arithmetic lands. -/
def wrapInt64 (v : Int) : Int :=
  (BitVec.ofInt 64 v).toInt

end Dynarec
