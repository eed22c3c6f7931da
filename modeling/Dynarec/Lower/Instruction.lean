import Dynarec.Lower.Access
import Dynarec.Lower.Data

/-!
# Lowering instructions

Branches leave the block; whoever runs it adds the displacement to the program counter. The path of
a conditional branch that is not taken runs on into what follows. Returning ends the run.

## Main definitions

* `Dynarec.Lower.branch`, `Dynarec.Lower.branchCond` — branches.
* `Dynarec.Lower.instruction` — the code of any guest instruction.
-/

set_option autoImplicit false

namespace Dynarec.Lower

open Guest (Instruction)

/-- Branches by leaving the block with the displacement. The target is not part of the code. -/
def branch (inst : Instruction) : Emit Unit := do
  wantOperands inst 1
  let offset ← labelAt inst 0
  exit .branch (BitVec.ofInt 64 offset)

/-- Branches when a condition holds. Otherwise the code jumps over the exit and runs on into what
follows. -/
def branchCond (inst : Instruction) : Emit Unit := do
  wantOperands inst 2
  let cond ← conditionAt inst 0
  let offset ← labelAt inst 1
  if cond.isAlways then
    exit .branch (BitVec.ofInt 64 offset)
  else
    let notTaken ← newLabel
    branchIf cond.invert notTaken
    exit .branch (BitVec.ofInt 64 offset)
    bindLabel notTaken

/-- Emits the code of an instruction at an address, against guest memory if there is any. An
operation that is not known fails. -/
def instruction (pc : Word) (memory : Option Memory) (inst : Instruction) : Emit Unit :=
  match inst.op with
  | .add => sum inst .add false
  | .adds => sum inst .add true
  | .sub => sum inst .sub false
  | .subs => sum inst .sub true
  | .cmp => compare inst false
  | .cmn => compare inst true
  | .ccmp => condCompare inst false
  | .ccmn => condCompare inst true
  | .adr => addressOf inst pc
  | .and => logical inst .and false
  | .ands => logical inst .and true
  | .orr => logical inst .or false
  | .eor => logical inst .xor false
  | .mov => move inst
  | .movz => moveZero inst
  | .movn => moveNot inst
  | .movk => moveKeep inst
  | .ldr | .ldrb | .ldrh => load inst memory
  | .str | .strb | .strh => store inst memory
  | .ldp => loadPair inst memory
  | .stp => storePair inst memory
  | .b => branch inst
  | .bcond => branchCond inst
  | .ret => exit .halt 0
  | .nop => goOn
  | .unknown | .other _ => .fail .decode (.noEmitter inst.op)

end Dynarec.Lower
