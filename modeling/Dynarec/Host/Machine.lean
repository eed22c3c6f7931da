import Dynarec.Host.Inst
import Dynarec.Memory
import Dynarec.Registers

/-!
# The host machine

What host code does when it runs: on registers, status flags, the four cells of the register file
and guest memory, which sit at their fixed host addresses. Code that touches anything else is
trapped. Status flags that an instruction leaves undefined keep their value.

A program is a list of steps whose jumps name the position of their target, so that it can be run
before and after it is laid out in bytes.

## Main definitions

* `Dynarec.Host.Flags` — the host status flags.
* `Dynarec.Host.State` — all state that code can see.
* `Dynarec.Host.Inst.step` — the effect of one instruction.
* `Dynarec.Host.Program` — steps with resolved jumps.
* `Dynarec.Host.exec`, `Dynarec.Host.Program.run` — running a program.
-/

set_option autoImplicit false

namespace Dynarec.Host

/-! ## Flags -/

/-- The host status flags: the six that arithmetic sets. -/
structure Flags where
  carry : Bool := false
  parity : Bool := false
  adjust : Bool := false
  zero : Bool := false
  sign : Bool := false
  overflow : Bool := false
  deriving DecidableEq, Repr

/-- Whether the low byte has an even number of ones. Wider results count with their low byte
only. -/
def evenParity {w : Nat} (r : BitVec w) : Bool :=
  (List.range 8).countP (fun i => r.getLsbD i) % 2 == 0

namespace Flags

/-- The flags of a sum. Carry and overflow say that the unsigned and the signed sum do not fit. -/
def ofAdd {w : Nat} (x y : BitVec w) : Flags where
  carry := x.uaddOverflow y
  parity := evenParity (x + y)
  adjust := 16 ≤ x.toNat % 16 + y.toNat % 16
  zero := x + y == 0
  sign := (x + y).msb
  overflow := x.saddOverflow y

/-- The flags of a difference. Here carry is the borrow, where the guest has its opposite. -/
def ofSub {w : Nat} (x y : BitVec w) : Flags where
  carry := x.toNat < y.toNat
  parity := evenParity (x - y)
  adjust := x.toNat % 16 < y.toNat % 16
  zero := x - y == 0
  sign := (x - y).msb
  overflow := x.ssubOverflow y

/-- The flags of a bitwise result. Carry and overflow are clear; the adjust flag is undefined and
keeps its value. -/
def ofLogic {w : Nat} (f : Flags) (r : BitVec w) : Flags where
  carry := false
  parity := evenParity r
  adjust := f.adjust
  zero := r == 0
  sign := r.msb
  overflow := false

/-- The low flags as one byte, in the places where the host puts them. Overflow is not among
them. -/
def lowByte (f : Flags) : Byte :=
  BitVec.ofBool f.sign ++ BitVec.ofBool f.zero ++ 0#1 ++ BitVec.ofBool f.adjust ++ 0#1 ++
    BitVec.ofBool f.parity ++ 1#1 ++ BitVec.ofBool f.carry

end Flags

/-- Whether a condition holds. Odd codes negate the even code below them; code 16 and above always
hold. -/
def Cond.holds (c : Cond) (f : Flags) : Bool :=
  let negated := c.code.getLsbD 0
  match c.code.toNat / 2 with
  | 0 => f.overflow != negated
  | 1 => f.carry != negated
  | 2 => f.zero != negated
  | 3 => (f.carry || f.zero) != negated
  | 4 => f.sign != negated
  | 5 => f.parity != negated
  | 6 => (f.sign != f.overflow) != negated
  | 7 => (f.zero || f.sign != f.overflow) != negated
  | _ => true

/-! ## State -/

/-- All state that code can see. Cells and guest memory are at fixed host addresses, so an
address tells which of the two is meant. -/
structure State where
  regs : Vector Word 16
  flags : Flags
  cells : Registers
  memory : Memory

namespace State

/-- The value of a register, all 64 bits of it. -/
def reg (s : State) (r : Reg) : Word :=
  s.regs[r.val]

/-- The state with a register replaced, all 64 bits of it. -/
def setReg (s : State) (r : Reg) (v : Word) : State :=
  { s with regs := s.regs.set r.val v r.isLt }

/-- The state with the flags replaced, all six of them. -/
def setFlags (s : State) (f : Flags) : State :=
  { s with flags := f }

/-- The position in guest memory of `n` bytes at a host address, if they lie inside. Closed
memory has no bytes, so nothing lies inside. -/
def memoryIndex? (s : State) (a : Word) (n : Nat) : Option Nat :=
  let i := (a - Memory.hostBase).toNat
  if i + n ≤ s.memory.bytes.size then some i else none

/-- The `n` bytes at a host address, zero-extended. Cells can only be read whole. -/
def load (s : State) (a : Word) (n : Nat) : Option Word :=
  match Cell.ofAddress? a with
  | some c => if n = 8 then some (s.cells.get c) else none
  | none =>
    (s.memoryIndex? a n).map fun i => BitVec.ofNat 64 (ofLittleEndian (s.memory.bytesAt i n))

/-- Stores the low `n` bytes of a word at a host address. Cells can only be written whole. -/
def store (s : State) (a : Word) (n : Nat) (v : Word) : Option State :=
  match Cell.ofAddress? a with
  | some c => if n = 8 then some { s with cells := s.cells.set c v } else none
  | none =>
    (s.memoryIndex? a n).map fun i =>
      { s with memory := s.memory.setBytesAt i (littleEndian n v.toNat) }

/-- What is set in a register is read from it, and the other registers are as before. -/
@[simp] theorem reg_setReg (s : State) (r q : Reg) (v : Word) :
    (s.setReg r v).reg q = if q = r then v else s.reg q := by
  simp only [reg, setReg, Vector.getElem_set, Fin.ext_iff]
  simp [eq_comm]

end State

/-! ## Instructions -/

/-- The result and flags of an operation. A compare has no result; other operations than the six
in use are not modelled. -/
def AluOp.apply {w : Nat} (f : Flags) (x y : BitVec w) : AluOp → Option (Option (BitVec w) × Flags)
  | add => some (some (x + y), .ofAdd x y)
  | or => some (some (x ||| y), f.ofLogic (x ||| y))
  | and => some (some (x &&& y), f.ofLogic (x &&& y))
  | sub => some (some (x - y), .ofSub x y)
  | xor => some (some (x ^^^ y), f.ofLogic (x ^^^ y))
  | cmp => some (none, .ofSub x y)
  | other _ => none

/-- The carry and overflow of a shift by `n`: the last bit moved out, and for a single bit whether
the sign changed. Overflow is defined for a single bit only. -/
def Flags.moved (f : Flags) (n : Nat) (out changed : Bool) : Flags :=
  { f with carry := out, overflow := if n = 1 then changed else f.overflow }

/-- The parity, zero and sign flags of a result. -/
def Flags.ofResult {w : Nat} (f : Flags) (r : BitVec w) : Flags :=
  { f with parity := evenParity r, zero := r == 0, sign := r.msb }

/-- The result and flags of a shift by `n`, less than the width. A shift by nothing leaves the
flags alone, and rotations set no more than carry and overflow. -/
def ShiftOp.apply {w : Nat} (f : Flags) (x : BitVec w) (n : Nat) :
    ShiftOp → Option (BitVec w × Flags)
  | shl =>
    let r := x <<< n
    let out := x.getLsbD (w - n)
    some (r, if n = 0 then f else (f.moved n out (r.msb != out)).ofResult r)
  | shr =>
    let r := x >>> n
    some (r, if n = 0 then f else (f.moved n (x.getLsbD (n - 1)) x.msb).ofResult r)
  | sar =>
    let r := x.sshiftRight n
    some (r, if n = 0 then f else (f.moved n (x.getLsbD (n - 1)) false).ofResult r)
  | rol =>
    let r := x.rotateLeft n
    let out := r.getLsbD 0
    some (r, if n = 0 then f else f.moved n out (r.msb != out))
  | ror =>
    let r := x.rotateRight n
    some (r, if n = 0 then f else f.moved n r.msb (r.msb != r.getMsbD 1))
  | other _ => none

namespace State

/-- Writes an operation's result, if it has one, at one of the two operand widths. A narrow
result clears the upper half of its register. -/
def alu (s : State) (op : AluOp) (width : Int) (dst : Reg) (x y : Word) : Option State :=
  if width = 64 then
    match op.apply s.flags x y with
    | some (some r, f) => some ((s.setReg dst r).setFlags f)
    | some (none, f) => some (s.setFlags f)
    | none => none
  else if width = 32 then
    match op.apply s.flags (x.setWidth 32) (y.setWidth 32) with
    | some (some r, f) => some ((s.setReg dst (r.setWidth 64)).setFlags f)
    | some (none, f) => some (s.setFlags f)
    | none => none
  else none

/-- Writes a shift's result at one of the two operand widths. A narrow result clears the upper
half of its register. -/
def shift (s : State) (op : ShiftOp) (width : Int) (dst : Reg) (n : Nat) : Option State :=
  if width = 64 then
    (op.apply s.flags (s.reg dst) n).map fun (r, f) => (s.setReg dst r).setFlags f
  else if width = 32 then
    (op.apply s.flags ((s.reg dst).setWidth 32) n).map fun (r, f) =>
      (s.setReg dst (r.setWidth 64)).setFlags f
  else none

/-- The address at a base register plus signed displacement, modulo the address space. -/
def address (s : State) (base : Reg) (disp : BitVec 32) : Word :=
  s.reg base + disp.signExtend 64

end State

/-- The number of bytes of an access size that loads and stores have; no other size has an
encoding. -/
def accessBytes? (size : Int) : Option Nat :=
  if size = 1 then some 1
  else if size = 2 then some 2
  else if size = 4 then some 4
  else if size = 8 then some 8
  else none

/-- The effect of an instruction; none when it is trapped. Setting a byte keeps the rest of its
register, and returning pops the return address. -/
def Inst.step (s : State) : Inst → Option State
  | mov width dst src =>
    if width = 64 then some (s.setReg dst (s.reg src))
    else if width = 32 then some (s.setReg dst (((s.reg src).setWidth 32).setWidth 64))
    else none
  | movImm dst value => some (s.setReg dst value)
  | movAbs dst value => some (s.setReg dst value)
  | load dst base disp size => do
    let n ← accessBytes? size
    let v ← s.load (s.address base disp) n
    some (s.setReg dst v)
  | store base disp src size => do
    let n ← accessBytes? size
    s.store (s.address base disp) n (s.reg src)
  | storeImm base disp imm => s.store (s.address base disp) 8 (imm.signExtend 64)
  | alu op width dst src => s.alu op width dst (s.reg dst) (s.reg src)
  | aluImm op width dst imm => s.alu op width dst (s.reg dst) imm
  | test width x y =>
    if width = 64 then some (s.setFlags (s.flags.ofLogic (s.reg x &&& s.reg y)))
    else if width = 32 then
      some (s.setFlags (s.flags.ofLogic ((s.reg x).setWidth 32 &&& (s.reg y).setWidth 32)))
    else none
  | shift op width dst amount => s.shift op width dst amount.toNat
  | setcc cond dst =>
    some (s.setReg dst
      ((s.reg dst &&& ~~~(0xFF : Word)) ||| (BitVec.ofBool (cond.holds s.flags)).setWidth 64))
  | movzx16 dst src => some (s.setReg dst (((s.reg src).setWidth 16).setWidth 64))
  | bt base bit =>
    some (s.setFlags { s.flags with carry := (s.reg base).getLsbD ((s.reg bit).toNat % 64) })
  | lahf =>
    some (s.setReg .rax
      ((s.reg .rax &&& ~~~(0xFF00 : Word)) ||| (s.flags.lowByte.setWidth 64 <<< 8)))
  | ret => some (s.setReg .rsp (s.reg .rsp + 8))
  | nop => some s

/-! ## Programs -/

/-- One step of a program: an instruction, or a jump to the step at a position, taken when its
condition holds. -/
inductive Step where
  | inst (i : Inst)
  | jump (cond : Cond) (target : Nat)
  deriving DecidableEq, Repr

/-- A program in the order of its code. A jump to the number of steps leaves it at its end. -/
abbrev Program := List Step

/-- How running a program ended. -/
inductive Outcome where
  /-- It returned to its caller. -/
  | returned (s : State)
  /-- It ran past its last step. -/
  | ended (s : State)
  /-- It touched something that is not there. -/
  | trapped
  /-- It was still running when its fuel was spent. -/
  | running

/-- Runs a program from the steps that remain, for at most `fuel` steps. A jump takes up the
program anew at the position of its target. -/
def exec (program : Program) : Nat → List Step → State → Outcome
  | 0, _, _ => .running
  | _ + 1, [], s => .ended s
  | fuel + 1, .inst i :: rest, s =>
    match i.step s with
    | none => .trapped
    | some t => if i = .ret then .returned t else exec program fuel rest t
  | fuel + 1, .jump cond target :: rest, s =>
    if cond.holds s.flags then exec program fuel (program.drop target) s
    else exec program fuel rest s

/-- Runs a program from its start. The fuel is enough for a program whose jumps all go forward. -/
def Program.run (program : Program) (s : State) : Outcome :=
  exec program (program.length + 1) program s

end Dynarec.Host
