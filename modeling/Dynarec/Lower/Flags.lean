import Dynarec.Lower.Emit

/-!
# Emitting flag code

Guest flags live in their cell. Code that sets them collects the host flags of the instruction just
before it; code that tests them looks the flags up in a table of the condition.

## Main definitions

* `Dynarec.Lower.Carry` — how the host carry becomes the guest carry.
* `Dynarec.Lower.updateFlags` — guest flags from host flags.
* `Dynarec.Lower.setFlags`, `Dynarec.Lower.storeFlags` — guest flags from a constant or a register.
* `Dynarec.Lower.branchIf` — a branch on a guest condition.
-/

set_option autoImplicit false

namespace Dynarec.Lower

open Host (Reg Inst)

/-- How the host carry becomes the guest carry. -/
inductive Carry where
  /-- Inverted: the guest sets carry when there is no borrow. -/
  | fromSub
  /-- As it is. -/
  | fromAdd
  deriving DecidableEq, Repr

/-- Stores the host flags of the preceding instruction as guest flags. The accumulator is taken
for the transfer: with overflow in its low byte and the low flags above, sign, zero, carry and
overflow stand in bits 15, 14, 8 and 0. -/
def updateFlags (carry : Carry) : Emit Unit := do
  reserve .rax
  let nzcv ← claim
  let tmp ← claim
  emit .lahf
  emit (.setcc .overflow .rax)
  emit (.movzx16 .rax .rax)
  emit (.mov 64 nzcv .rax)
  emit (.aluImm .and 32 nzcv 0xC000)
  emit (.shift .shl 32 nzcv 16)
  emit (.mov 64 tmp .rax)
  emit (.aluImm .and 32 tmp 0x100)
  if carry = .fromSub then
    emit (.aluImm .xor 32 tmp 0x100)
  emit (.shift .shl 32 tmp 21)
  emit (.alu .or 32 nzcv tmp)
  emit (.aluImm .and 32 .rax 1)
  emit (.shift .shl 32 .rax 28)
  emit (.alu .or 32 nzcv .rax)
  emit (.movAbs tmp Cell.nzcv.address)
  emit (.store tmp 0 nzcv 8)
  release tmp
  release nzcv

/-- Loads the guest zero flag as 0 or 1, with all other bits of the register clear. -/
def loadZero (dst : Reg) : Emit Unit := do
  emit (.movAbs dst Cell.nzcv.address)
  emit (.load dst dst 0 8)
  emit (.shift .shr 64 dst 30)
  emit (.aluImm .and 32 dst 1)

/-- Stores a register as the guest flags. The register stays reserved. -/
def storeFlags (src : Reg) : Emit Unit :=
  storeCell .nzcv src

/-- Stores a constant nibble as the guest flags. -/
def setFlags (nibble : BitVec 4) : Emit Unit :=
  withScratch fun val => do
    emit (.movImm val (nibble.setWidth 64 <<< Guest.Flags.shift))
    storeFlags val

/-- Branches when a condition holds for the guest flags. Equality tests the zero flag itself;
other conditions test the bit of their table that the flags select. -/
def branchIf (cond : Guest.Condition) (label : Nat) : Emit Unit :=
  if cond.isAlways then emitBranch .always label
  else
    withScratch fun t => do
      if cond = .eq ∨ cond = .ne then
        loadZero t
        emit (.test 32 t t)
        emitBranch (if cond = .eq then .notEqual else .equal) label
      else
        withScratch fun table => do
          emit (.movAbs t Cell.nzcv.address)
          emit (.load t t 0 8)
          emit (.shift .shr 32 t (BitVec.ofNat 8 Guest.Flags.shift))
          emit (.movImm table cond.table)
          emit (.bt table t)
          emitBranch .carry label

end Dynarec.Lower
