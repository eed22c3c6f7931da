import Dynarec.Engine.Block

/-!
# One instruction alone

The code of a single guest instruction, outside any block: emitted with some host registers already
in use, and run with an exit behind it that halts.

## Main definitions

* `Dynarec.Engine.Trial` — an instruction and the circumstances it is compiled in.
* `Dynarec.Engine.Trial.emitted` — what emitting it gives.
* `Dynarec.Engine.Trial.run` — what running it does.
-/

set_option autoImplicit false

namespace Dynarec.Engine

/-- An instruction to compile alone: its address, the memory it is compiled against, if any, and
the host registers that are in use already. -/
structure Trial where
  inst : Guest.Instruction
  pc : Word
  memory : Option Memory
  reserved : List Host.Reg := []

namespace Trial

/-- The emission before the instruction: no code yet, and the given host registers reserved. -/
def initial (t : Trial) : Lower.Emission where
  scratch := t.reserved.foldl Lower.Scratch.reserve {}

/-- What emitting the instruction gives, with the emission it leaves also when it fails. -/
def emitted (t : Trial) : Except Failure Unit × Lower.Emission :=
  (Lower.instruction t.pc t.memory t.inst).runOn t.initial

/-- The code of the instruction with an exit behind it that halts, so that an instruction that
does not leave by itself still returns. -/
def code (t : Trial) : Except Failure Code.Assembled :=
  let action : Lower.Emit Unit := do
    Lower.instruction t.pc t.memory t.inst
    Lower.exit .halt 0
  match action.runOn t.initial with
  | (.error f, _) => .error f
  | (.ok (), e) => e.code.assemble

/-- Runs the instruction. There is no result when it has no code or its code does not return.
Memory that is not there has no bytes. -/
def run (t : Trial) (registers : Registers) : Option Returned :=
  match t.code with
  | .error _ => none
  | .ok code => callCode code.program registers (t.memory.getD (.closed 0 0))

end Trial

end Dynarec.Engine
