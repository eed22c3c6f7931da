import Dynarec.Code.Builder
import Dynarec.Lower.Scratch
import Dynarec.Registers

/-!
# Emitting host code

Lowering a guest instruction adds host code to a builder while it claims and releases scratch
registers. It can fail, and then leaves behind what it had added and claimed so far.

## Main definitions

* `Dynarec.Lower.Emission` — code, scratch registers, and whether the block goes on.
* `Dynarec.Lower.Emit` — an action on an emission that can fail.
* `Dynarec.Lower.withScratch` — code that holds a scratch register for its own duration.
* `Dynarec.Lower.readRegister`, `Dynarec.Lower.writeRegister` — access to guest registers.
* `Dynarec.Lower.exit` — leaving the block.
-/

set_option autoImplicit false

namespace Dynarec

/-! ## Exits -/

/-- Why a block returned. -/
inductive Exit where
  /-- The run is over. -/
  | halt
  /-- The run goes on at the program counter plus the parameter. -/
  | branch
  /-- An access to the address in the parameter lies outside guest memory. -/
  | fault
  /-- A number that stands for no exit. -/
  | other (number : Word)
  deriving DecidableEq, Repr

namespace Exit

/-- The number of an exit, which compiled code hands over in a register. -/
def number : Exit → Word
  | halt => 0
  | branch => 1
  | fault => 2
  | other n => n

/-- The exit with a number. Numbers that code never hands over are kept as they are. -/
def ofNumber (n : Word) : Exit :=
  if n = 0 then halt else if n = 1 then branch else if n = 2 then fault else other n

/-- The name of an exit. -/
def name : Exit → String
  | halt => "halt"
  | branch => "branch"
  | fault => "fault"
  | other n => "exit(" ++ Text.decimal n.toNat ++ ")"

end Exit

namespace Lower

open Host (Reg Inst)

/-! ## Emissions -/

/-- The state of lowering one guest instruction: the code so far, the scratch registers in use,
and whether the block goes on. -/
structure Emission where
  code : Code.Builder := {}
  scratch : Scratch := {}
  /-- Whether the block goes on behind the instruction. -/
  goesOn : Bool := false

/-- An action that emits code and can fail. A failure keeps the emission it came to. -/
abbrev Emit := ExceptT Failure (StateM Emission)

namespace Emit

/-- Changes the emission and cannot fail. -/
def update (f : Emission → Emission) : Emit Unit :=
  ExceptT.mk fun e => (.ok (), f e)

/-- Fails with a kind and a reason, at no address yet. -/
def fail {α : Type} (kind : Kind) (reason : Reason) : Emit α :=
  ExceptT.mk fun e => (.error (.of kind reason), e)

/-- Runs an action, then changes the emission whether the action failed or not. -/
def andAlways {α : Type} (body : Emit α) (f : Emission → Emission) : Emit α :=
  ExceptT.mk fun e =>
    let (result, e) := body.run.run e
    (result, f e)

/-- Runs an action on an emission, and gives its result together with the emission it leaves. -/
def runOn {α : Type} (body : Emit α) (e : Emission) : Except Failure α × Emission :=
  body.run.run e

end Emit

/-- Adds an instruction. It is only recorded: whether it has an encoding is found out later. -/
def emit (i : Inst) : Emit Unit :=
  .update fun e => { e with code := e.code.add i }

/-- Adds a branch to a label, which may be bound later. -/
def emitBranch (cond : Host.Cond) (label : Nat) : Emit Unit :=
  .update fun e => { e with code := e.code.branch cond label }

/-- A fresh label. -/
def newLabel : Emit Nat :=
  ExceptT.mk fun e =>
    let (code, label) := e.code.createLabel
    (.ok label, { e with code := code })

/-- Binds a label to what is emitted next. -/
def bindLabel (label : Nat) : Emit Unit :=
  .update fun e => { e with code := e.code.bind label }

/-- Says that the block goes on behind this instruction. Without it the instruction is the last
one of its line. -/
def goOn : Emit Unit :=
  .update fun e => { e with goesOn := true }

/-! ## Scratch registers -/

/-- Marks a register as in use. -/
def reserve (r : Reg) : Emit Unit :=
  .update fun e => { e with scratch := e.scratch.reserve r }

/-- Marks a register as free. -/
def release (r : Reg) : Emit Unit :=
  .update fun e => { e with scratch := e.scratch.release r }

/-- Claims a scratch register. When none is free the action fails and nothing is claimed. -/
def claim : Emit Reg :=
  ExceptT.mk fun e =>
    match e.scratch.claim? with
    | some (r, scratch) => (.ok r, { e with scratch := scratch })
    | none => (.error (.of .resourceExhaustion (.scratchInUse Scratch.pool.length)), e)

/-- Claims `n` scratch registers. When there are not enough, those already claimed stay claimed. -/
def claimMany : Nat → Emit (List Reg)
  | 0 => pure []
  | n + 1 => do
    let r ← claim
    let rs ← claimMany n
    pure (r :: rs)

/-- Claims a scratch register for the duration of an action. It is released afterwards whether
the action failed or not. -/
def withScratch {α : Type} (body : Reg → Emit α) : Emit α := do
  let r ← claim
  (body r).andAlways fun e => { e with scratch := e.scratch.release r }

/-! ## Cells -/

/-- Loads a cell. The register holds the address first, so no second register is needed. -/
def loadCell (dst : Reg) (c : Cell) : Emit Unit := do
  emit (.movAbs dst c.address)
  emit (.load dst dst 0 8)

/-- Stores a register into a cell. The address needs a scratch register of its own, and the
register that was stored stays reserved. -/
def storeCell (c : Cell) (src : Reg) : Emit Unit := do
  reserve src
  withScratch fun addr => do
    emit (.movAbs addr c.address)
    emit (.store addr 0 src 8)

/-- Stores a constant into a cell. A constant that fits into 32 bits with its sign goes into the
store, and any other through a scratch register. -/
def storeCellImm (c : Cell) (v : Word) : Emit Unit :=
  withScratch fun addr => do
    emit (.movAbs addr c.address)
    if fitsInt32 v.toInt then
      emit (.storeImm addr 0 (v.setWidth 32))
    else
      withScratch fun val => do
        emit (.movImm val v)
        emit (.store addr 0 val 8)

/-! ## Guest registers -/

/-- The cell of a guest register. A register without one makes the action fail. -/
def cellOf (r : Guest.Register) : Emit Cell :=
  match Cell.ofRegister? r with
  | some c => pure c
  | none => .fail .unmapped (.unmappedRegister r)

/-- Claims a scratch register that holds a guest register. The zero register is cleared without a
look at any cell. -/
def readRegister (r : Guest.Register) : Emit Reg := do
  let h ← claim
  if r.isZero then
    emit (.alu .xor 32 h h)
    pure h
  else
    let c ← cellOf r
    loadCell h c
    pure h

/-- The host operation of a guest shift. -/
def hostShift : Guest.ShiftKind → Host.ShiftOp
  | .lsl => .shl
  | .lsr => .shr
  | .asr => .sar
  | .ror => .ror

/-- Claims a scratch register that holds a shifted guest register. A shift by nothing needs no
code. -/
def readShifted (r : Guest.Register) (kind : Guest.ShiftKind) (amount : Nat) : Emit Reg := do
  let h ← readRegister r
  if amount ≠ 0 then
    emit (.shift (hostShift kind) r.width h (BitVec.ofNat 8 amount))
  pure h

/-- Stores a host register into a guest register. Narrow results are zero-extended; the zero
register takes nothing. -/
def writeRegister (r : Guest.Register) (h : Reg) : Emit Unit :=
  if r.isZero then pure ()
  else do
    let c ← cellOf r
    if r.width = 32 then
      emit (.mov 32 h h)
    storeCell c h

/-- Stores a constant into a guest register. -/
def writeRegisterImm (r : Guest.Register) (v : Word) : Emit Unit :=
  if r.isZero then pure ()
  else do
    let c ← cellOf r
    storeCellImm c (if r.width = 32 then v &&& 0xFFFFFFFF else v)

/-- Applies an operation to a register and a constant, through a scratch register where the
constant has no immediate form at this width. -/
def aluConst (op : Host.AluOp) (width : Int) (dst : Reg) (v : Word) : Emit Unit :=
  let imm : Word := if width = 32 then (v.setWidth 32).signExtend 64 else v
  if fitsInt32 imm.toInt then
    emit (.aluImm op width dst imm)
  else
    withScratch fun tmp => do
      emit (.movImm tmp v)
      emit (.alu op width dst tmp)

/-! ## Leaving the block -/

/-- Leaves the block with a constant parameter. The kind of exit and the parameter go into fixed
registers, which need not be claimed, as nothing runs behind them. -/
def exit (kind : Exit) (param : Word) : Emit Unit := do
  emit (.movImm .rax kind.number)
  emit (.movImm .rdx param)
  emit .ret

/-- Leaves the block with the parameter in a register. The parameter is moved first, so it may be
in the register that the kind goes to. -/
def exitWith (kind : Exit) (src : Reg) : Emit Unit := do
  if src ≠ .rdx then
    emit (.mov 64 .rdx src)
  emit (.movImm .rax kind.number)
  emit .ret

/-! ## Operands -/

/-- Requires a number of operands. Decoding always gives that number, so this fails only for
instructions made by hand. -/
def wantOperands (inst : Guest.Instruction) (n : Nat) : Emit Unit :=
  if inst.operands.length = n then pure ()
  else .fail .decode (.operandCount inst.op n inst.operands.length)

/-- The operand at a position, or the absent one behind the last. -/
def operandAt (inst : Guest.Instruction) (i : Nat) : Guest.Operand :=
  inst.operands.getD i .absent

/-- The register operand at a position. -/
def registerAt (inst : Guest.Instruction) (i : Nat) : Emit Guest.Register :=
  match operandAt inst i with
  | .reg r => pure r
  | o => .fail .decode (.operandShape inst.op i .register o)

/-- The immediate operand at a position. -/
def immediateAt (inst : Guest.Instruction) (i : Nat) : Emit Guest.Immediate :=
  match operandAt inst i with
  | .imm v => pure v
  | o => .fail .decode (.operandShape inst.op i .immediate o)

/-- The condition operand at a position. -/
def conditionAt (inst : Guest.Instruction) (i : Nat) : Emit Guest.Condition :=
  match operandAt inst i with
  | .cond c => pure c
  | o => .fail .decode (.operandShape inst.op i .condition o)

/-- The label operand at a position. -/
def labelAt (inst : Guest.Instruction) (i : Nat) : Emit Int :=
  match operandAt inst i with
  | .label offset => pure offset
  | o => .fail .decode (.operandShape inst.op i .label o)

/-- The memory operand at a position. -/
def memoryAt (inst : Guest.Instruction) (i : Nat) : Emit Guest.MemoryRef :=
  match operandAt inst i with
  | .mem m => pure m
  | o => .fail .decode (.operandShape inst.op i .memory o)

end Lower

end Dynarec
