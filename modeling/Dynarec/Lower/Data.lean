import Dynarec.Lower.Flags

/-!
# Lowering data processing

Sums, logical operations, compares and moves. The host sets its flags as the guest does, up to the
sense of the carry after a subtraction, and clears carry and overflow in logical operations.

## Main definitions

* `Dynarec.Lower.sum`, `Dynarec.Lower.logical` — three-operand operations.
* `Dynarec.Lower.compare`, `Dynarec.Lower.condCompare` — compares and conditional compares.
* `Dynarec.Lower.move`, `moveZero`, `moveNot`, `moveKeep`, `addressOf` — moves.
-/

set_option autoImplicit false

namespace Dynarec.Lower

open Host (Reg Inst AluOp)
open Guest (Instruction Register Immediate Operand)

/-! ## Sums and logical operations -/

/-- Adds or subtracts an immediate or a shifted register, at the width of the destination. The
accumulator is taken before anything is claimed, as the flags need it. -/
def sum (inst : Instruction) (op : AluOp) (flags : Bool) : Emit Unit := do
  goOn
  wantOperands inst 3
  let rd ← registerAt inst 0
  let rn ← registerAt inst 1
  if flags then
    reserve .rax
  let dst ← readRegister rn
  match operandAt inst 2 with
  | .imm v => emit (.aluImm op rd.width dst v.shifted)
  | .reg r =>
    let src ← readRegister r
    emit (.alu op rd.width dst src)
  | .shifted r kind amount =>
    let src ← readShifted r kind amount
    emit (.alu op rd.width dst src)
  | o => .fail .decode (.operandUnsupported inst.op o)
  writeRegister rd dst
  if flags then
    updateFlags (if op = .sub then .fromSub else .fromAdd)

/-- Combines bits with a mask or a shifted register, at the width of the destination. A mask need
not fit into an instruction. -/
def logical (inst : Instruction) (op : AluOp) (flags : Bool) : Emit Unit := do
  goOn
  wantOperands inst 3
  let rd ← registerAt inst 0
  let rn ← registerAt inst 1
  if flags then
    reserve .rax
  let dst ← readRegister rn
  match operandAt inst 2 with
  | .imm v => aluConst op rd.width dst v.shifted
  | .reg r =>
    let src ← readRegister r
    emit (.alu op rd.width dst src)
  | .shifted r kind amount =>
    let src ← readShifted r kind amount
    emit (.alu op rd.width dst src)
  | o => .fail .decode (.operandUnsupported inst.op o)
  writeRegister rd dst
  if flags then
    updateFlags .fromAdd

/-! ## Compares -/

/-- Sets the flags of a difference or, negated, of a sum. A negated immediate is subtracted with
its sign changed; zero has to be added, because taking zero away never borrows. -/
def compareWith (rn : Register) (second : Operand) (negated : Bool) : Emit Unit := do
  reserve .rax
  let lhs ← readRegister rn
  match second with
  | .imm v =>
    if !negated then
      emit (.aluImm .cmp rn.width lhs v.shifted)
      updateFlags .fromSub
    else if v.shifted = 0 then
      emit (.aluImm .add rn.width lhs 0)
      updateFlags .fromAdd
    else
      emit (.aluImm .sub rn.width lhs (-v.shifted))
      updateFlags .fromSub
  | .reg r =>
    let rhs ← readRegister r
    compareRegisters lhs rhs
  | .shifted r kind amount =>
    let rhs ← readShifted r kind amount
    compareRegisters lhs rhs
  | o => .fail .decode (.compareUnsupported o)
where
  /-- Sets the flags of a difference or a sum of registers. -/
  compareRegisters (lhs rhs : Reg) : Emit Unit :=
    if negated then do
      emit (.alu .add rn.width lhs rhs)
      updateFlags .fromAdd
    else do
      emit (.alu .cmp rn.width lhs rhs)
      updateFlags .fromSub

/-- Compares a register with an immediate or a shifted register, and keeps nothing but the flags. -/
def compare (inst : Instruction) (negated : Bool) : Emit Unit := do
  wantOperands inst 2
  let rn ← registerAt inst 0
  goOn
  compareWith rn (operandAt inst 1) negated

/-- Compares when a condition holds, and otherwise sets the flags to a constant. The two parts of
the code exclude each other, and both have to compile. -/
def condCompare (inst : Instruction) (negated : Bool) : Emit Unit := do
  goOn
  wantOperands inst 4
  let rn ← registerAt inst 0
  let nzcv ← immediateAt inst 2
  let cond ← conditionAt inst 3
  if 0xF < nzcv.value then
    Emit.fail .decode (.flagsRange nzcv.value)
  else if cond.isAlways then
    compareWith rn (operandAt inst 1) negated
  else
    let otherwise ← newLabel
    let done ← newLabel
    branchIf cond.invert otherwise
    compareWith rn (operandAt inst 1) negated
    emitBranch .always done
    bindLabel otherwise
    setFlags (nzcv.value.setWidth 4)
    bindLabel done

/-! ## Moves -/

/-- Copies a register, cut to the width of the destination. -/
def move (inst : Instruction) : Emit Unit := do
  wantOperands inst 2
  let rd ← registerAt inst 0
  let rm ← registerAt inst 1
  let h ← readRegister rm
  goOn
  writeRegister rd h

/-- The destination and the immediate of a wide move. -/
def wideOperands (inst : Instruction) : Emit (Register × Immediate) := do
  wantOperands inst 2
  let rd ← registerAt inst 0
  let imm ← immediateAt inst 1
  pure (rd, imm)

/-- Sets a register to a shifted immediate; the other bits are zero. -/
def moveZero (inst : Instruction) : Emit Unit := do
  let (rd, imm) ← wideOperands inst
  goOn
  writeRegisterImm rd imm.shifted

/-- Sets a register to the complement of a shifted immediate; the other bits are ones, as far as
the register is wide. -/
def moveNot (inst : Instruction) : Emit Unit := do
  let (rd, imm) ← wideOperands inst
  goOn
  writeRegisterImm rd (~~~imm.shifted)

/-- Replaces one sixteen-bit field of a register, and keeps the others. The field is cleared, and
then set if there is anything to set. -/
def moveKeep (inst : Instruction) : Emit Unit := do
  let (rd, imm) ← wideOperands inst
  let h ← readRegister rd
  aluConst .and 64 h (~~~((0xFFFF : Word) <<< imm.shift))
  if imm.value ≠ 0 then
    aluConst .or 64 h imm.shifted
  goOn
  writeRegister rd h

/-- Sets a register to an address relative to the instruction. The address is known when the code
is emitted. -/
def addressOf (inst : Instruction) (pc : Word) : Emit Unit := do
  wantOperands inst 2
  let rd ← registerAt inst 0
  let offset ← labelAt inst 1
  goOn
  writeRegisterImm rd (pc + BitVec.ofInt 64 offset)

end Dynarec.Lower
