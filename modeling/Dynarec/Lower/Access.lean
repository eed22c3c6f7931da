import Dynarec.Lower.Emit

/-!
# Lowering loads and stores

Every access is checked against the bounds that guest memory has when the code is emitted: the
address, less the lower bound, is compared with the room that is left for an access of its size.
An access out of bounds leaves the block with the guest address.

## Main definitions

* `Dynarec.Lower.guestPointer` — the host address of a checked access.
* `Dynarec.Lower.load`, `store`, `loadPair`, `storePair` — the instructions.
-/

set_option autoImplicit false

namespace Dynarec.Lower

open Host (Reg)
open Guest (Instruction Register)

/-- The number of bytes that a load or store of a register moves. -/
def accessSize (op : Guest.Op) (rt : Register) : Int :=
  match op with
  | .ldrb | .strb => 1
  | .ldrh | .strh => 2
  | _ => rt.width.tdiv 8

/-- Computes and checks a guest address, and gives a scratch register with its host address.
Stores are also confined to the writable part of memory. -/
def guestPointer (memory : Option Memory) (m : Guest.MemoryRef) (size : Int) (write : Bool) :
    Emit Reg := do
  match memory with
  | none => .fail .fault .noMemory
  | some mem =>
    let t ← readRegister m.base
    if m.offset ≠ 0 then
      aluConst .add 64 t (BitVec.ofInt 64 m.offset)
    withScratch fun guest => do
      emit (.mov 64 guest t)
      let lo := if write then mem.writableStart else mem.base
      let room := mem.stop - lo
      let length : Word := BitVec.ofInt 64 size
      let inRange ← newLabel
      if length ≤ room then
        aluConst .sub 64 t lo
        aluConst .cmp 64 t (room - length)
        emitBranch .belowOrEqual inRange
      exitWith .fault guest
      bindLabel inRange
      withScratch fun host => do
        emit (.movAbs host (mem.hostAddress + (lo - mem.base)))
        emit (.alu .add 64 t host)
        pure t

/-- Loads a register, zero-extended. The value goes through the register that held the host
address. -/
def load (inst : Instruction) (memory : Option Memory) : Emit Unit := do
  wantOperands inst 2
  let rt ← registerAt inst 0
  let m ← memoryAt inst 1
  let size := accessSize inst.op rt
  let ptr ← guestPointer memory m size false
  emit (.load ptr ptr 0 size)
  goOn
  writeRegister rt ptr

/-- Stores a register. Its value is read before the address is computed. -/
def store (inst : Instruction) (memory : Option Memory) : Emit Unit := do
  wantOperands inst 2
  let rt ← registerAt inst 0
  let m ← memoryAt inst 1
  let size := accessSize inst.op rt
  let val ← readRegister rt
  let ptr ← guestPointer memory m size true
  emit (.store ptr 0 val size)
  goOn

/-- Loads two registers. Both values are read before either register is written. -/
def loadPair (inst : Instruction) (memory : Option Memory) : Emit Unit := do
  wantOperands inst 3
  let rt ← registerAt inst 0
  let rt2 ← registerAt inst 1
  let m ← memoryAt inst 2
  let size := rt.width.tdiv 8
  let ptr ← guestPointer memory m (2 * size) false
  let first ← claim
  let second ← claim
  emit (.load first ptr 0 size)
  emit (.load second ptr (BitVec.ofInt 32 size) size)
  writeRegister rt first
  goOn
  writeRegister rt2 second

/-- Stores two registers. Both are covered by one check, so either both are stored or none is. -/
def storePair (inst : Instruction) (memory : Option Memory) : Emit Unit := do
  wantOperands inst 3
  let rt ← registerAt inst 0
  let rt2 ← registerAt inst 1
  let m ← memoryAt inst 2
  let size := rt.width.tdiv 8
  let first ← readRegister rt
  let second ← readRegister rt2
  let ptr ← guestPointer memory m (2 * size) true
  emit (.store ptr 0 first size)
  emit (.store ptr (BitVec.ofInt 32 size) second size)
  goOn

end Dynarec.Lower
