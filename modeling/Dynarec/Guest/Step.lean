import Dynarec.Guest.Decode
import Dynarec.Memory
import Dynarec.Registers

/-!
# The meaning of guest instructions

What one guest instruction does to the guest registers and guest memory, said directly and without
any host code. Arithmetic takes place at the width of the registers named, and narrow results are
zero-extended. Sums set their flags by comparing the result with the unbounded sum.

## Main definitions

* `Dynarec.Guest.State` — registers and memory.
* `Dynarec.Guest.addWithCarry` — sums and their flags.
* `Dynarec.Guest.Effect`, `Dynarec.Guest.State.step` — the effect of an instruction.
* `Dynarec.Guest.Ending`, `Dynarec.Guest.runFrom` — running a stream one instruction at a time.
-/

set_option autoImplicit false

namespace Dynarec.Guest

/-! ## State -/

/-- The guest registers and guest memory, which is all that a guest instruction can read or
change. -/
structure State where
  registers : Registers
  memory : Memory

/-- The number of bits of a register view. Decoding gives the two widths only, so any other is
taken for the lower one. -/
def bits (width : Int) : Nat :=
  if width = 64 then 64 else 32

namespace State

/-- The value of a register; the zero register reads as zero. Only mapped registers have one, so
an instruction that reads another has no meaning here. -/
def read (s : State) (r : Register) : Option Word :=
  if r.isZero then some 0 else (Cell.ofRegister? r).map s.registers.get

/-- The state with a register replaced; the zero register takes nothing. What is written is all
64 bits of the cell. -/
def write (s : State) (r : Register) (v : Word) : Option State :=
  if r.isZero then some s
  else (Cell.ofRegister? r).map fun c => { s with registers := s.registers.set c v }

/-- The state with the flags replaced, in the one cell that holds all four. -/
def setFlags (s : State) (f : Flags) : State :=
  { s with registers := { s.registers with nzcv := f.toWord } }

/-- The flags, as the cell has them now. -/
def flags (s : State) : Flags :=
  Flags.ofWord s.registers.nzcv

end State

/-! ## Arithmetic -/

/-- A shift of a register operand, by an amount below the width. -/
def ShiftKind.apply {w : Nat} (x : BitVec w) (n : Nat) : ShiftKind → BitVec w
  | lsl => x <<< n
  | lsr => x >>> n
  | asr => x.sshiftRight n
  | ror => x.rotateRight n

/-- The sum of two numbers and a carry, and its flags: carry says that the unsigned sum does not
fit, overflow that the signed sum does not. -/
def addWithCarry {w : Nat} (x y : BitVec w) (carry : Bool) : BitVec w × Flags :=
  let r := x + y + BitVec.ofNat w carry.toNat
  (r,
    { negative := r.msb
      zero := r == 0
      carry := r.toNat != x.toNat + y.toNat + carry.toNat
      overflow := r.toInt != x.toInt + y.toInt + carry.toNat })

/-- A sum, or a difference as the sum with the complement and a carry. So the carry of a
difference says that nothing was borrowed. -/
def addOrSub {w : Nat} (sub : Bool) (x y : BitVec w) : BitVec w × Flags :=
  if sub then addWithCarry x (~~~y) true else addWithCarry x y false

/-- The flags of a bitwise result: carry and overflow are clear. -/
def logicalFlags {w : Nat} (r : BitVec w) : Flags where
  negative := r.msb
  zero := r == 0
  carry := false
  overflow := false

/-- The bitwise operations that instructions have. -/
inductive Bitwise where
  | and | or | xor
  deriving DecidableEq, Repr

/-- A bitwise operation, bit by bit at any width. -/
def Bitwise.apply {w : Nat} (x y : BitVec w) : Bitwise → BitVec w
  | and => x &&& y
  | or => x ||| y
  | xor => x ^^^ y

/-- The value of a last operand at a width. A shifted register is first cut to the width and then
shifted, so no bits come in from above. -/
def State.source (s : State) (w : Nat) : Operand → Option (BitVec w)
  | .imm i => some (i.shifted.setWidth w)
  | .reg r => (s.read r).map fun v => v.setWidth w
  | .shifted r kind amount => (s.read r).map fun v => kind.apply (v.setWidth w) amount
  | _ => none

/-! ## Effects -/

/-- What an instruction does: where the run goes on and in which state. A fault carries the state
from before the instruction. -/
inductive Effect where
  /-- Goes on with the next instruction. -/
  | next (s : State)
  /-- Goes on at a distance from the instruction itself. -/
  | jump (distance : Word) (s : State)
  /-- Ends the run. -/
  | halt (s : State)
  /-- Touches an address it may not touch, and does nothing else. -/
  | fault (address : Word) (s : State)

namespace State

/-- Adds or subtracts at the width of the destination, and sets the flags if asked for. A narrow
result clears the upper half of its register. -/
def sum (s : State) (rd rn : Register) (src : Operand) (sub flags : Bool) : Option Effect := do
  let w := bits rd.width
  let x ← s.read rn
  let y ← s.source w src
  let (r, f) := addOrSub sub (x.setWidth w) y
  let t ← s.write rd (r.setWidth 64)
  some (.next (if flags then t.setFlags f else t))

/-- Combines bits at the width of the destination, and sets the flags if asked for. -/
def logical (s : State) (rd rn : Register) (src : Operand) (op : Bitwise) (flags : Bool) :
    Option Effect := do
  let w := bits rd.width
  let x ← s.read rn
  let y ← s.source w src
  let r := op.apply (x.setWidth w) y
  let t ← s.write rd (r.setWidth 64)
  some (.next (if flags then t.setFlags (logicalFlags r) else t))

/-- The flags of comparing, which is adding or subtracting without keeping the result. -/
def compareFlags (s : State) (rn : Register) (src : Operand) (sub : Bool) : Option Flags := do
  let w := bits rn.width
  let x ← s.read rn
  let y ← s.source w src
  some (addOrSub sub (x.setWidth w) y).2

/-- Compares when a condition holds, and sets the flags to a constant otherwise. The operands
must have values in both cases. -/
def condCompare (s : State) (rn : Register) (src : Operand) (nzcv : Word) (cond : Condition)
    (sub : Bool) : Option Effect := do
  let f ← s.compareFlags rn src sub
  some (.next (s.setFlags (if cond.holds s.flags then f else .ofNibble (nzcv.setWidth 4))))

/-- Sets a register to a value, cut to its width. -/
def move (s : State) (rd : Register) (v : Word) : Option Effect :=
  (s.write rd ((v.setWidth (bits rd.width)).setWidth 64)).map .next

/-- Whether the guest may load `n` bytes at an address: all of them lie inside memory. -/
def mayLoad (s : State) (address : Word) (n : Nat) : Bool :=
  s.memory.contains address (BitVec.ofNat 64 n)

/-- Whether the guest may store `n` bytes at an address: all of them lie inside memory, and none
is below the limit. -/
def mayStore (s : State) (address : Word) (n : Nat) : Bool :=
  s.memory.contains address (BitVec.ofNat 64 n) && s.memory.writableStart ≤ address

/-- The number in `n` bytes of memory, in little endian and zero-extended. -/
def loaded (s : State) (address : Word) (n : Nat) : Word :=
  BitVec.ofNat 64 (ofLittleEndian (s.memory.bytesAt (address - s.memory.base).toNat n))

/-- The state with bytes of memory replaced from an address on. -/
def stored (s : State) (address : Word) (data : List Byte) : State :=
  { s with memory := s.memory.setBytesAt (address - s.memory.base).toNat data }

/-- The address of a memory operand: base and offset, added modulo the address space. -/
def address (s : State) (m : MemoryRef) : Option Word :=
  (s.read m.base).map fun b => b + BitVec.ofInt 64 m.offset

/-- Loads `n` bytes into a register, zero-extended. Where it may not load it changes nothing. -/
def load (s : State) (rt : Register) (m : MemoryRef) (n : Nat) : Option Effect := do
  let a ← s.address m
  let t ← s.write rt (s.loaded a n)
  some (if s.mayLoad a n then .next t else .fault a s)

/-- Stores the low `n` bytes of a register. Where it may not store any of them it stores none. -/
def store (s : State) (rt : Register) (m : MemoryRef) (n : Nat) : Option Effect := do
  let v ← s.read rt
  let a ← s.address m
  some (if s.mayStore a n then .next (s.stored a (littleEndian n v.toNat)) else .fault a s)

/-- Loads two registers of `n` bytes each, from one range that must be allowed as a whole. Both
are read before either is written. -/
def loadPair (s : State) (rt rt2 : Register) (m : MemoryRef) (n : Nat) : Option Effect := do
  let a ← s.address m
  let t ← s.write rt (s.loaded a n)
  let t ← t.write rt2 (s.loaded (a + BitVec.ofNat 64 n) n)
  some (if s.mayLoad a (2 * n) then .next t else .fault a s)

/-- Stores two registers of `n` bytes each, to one range that must be allowed as a whole. -/
def storePair (s : State) (rt rt2 : Register) (m : MemoryRef) (n : Nat) : Option Effect := do
  let v ← s.read rt
  let v2 ← s.read rt2
  let a ← s.address m
  some
    (if s.mayStore a (2 * n) then
      .next (s.stored a (littleEndian n v.toNat ++ littleEndian n v2.toNat))
    else .fault a s)

/-- Goes on at a distance from the instruction when a condition holds. -/
def jumpIf (s : State) (cond : Condition) (offset : Int) : Effect :=
  if cond.holds s.flags then .jump (BitVec.ofInt 64 offset) s else .next s

/-- The effect of the instruction at an address; none when it names a register that is not mapped,
or has operands of other shapes than decoding gives. -/
def step (s : State) (pc : Word) (inst : Instruction) : Option Effect :=
  match inst.op, inst.operands with
  | .add, [.reg rd, .reg rn, src] => s.sum rd rn src false false
  | .adds, [.reg rd, .reg rn, src] => s.sum rd rn src false true
  | .sub, [.reg rd, .reg rn, src] => s.sum rd rn src true false
  | .subs, [.reg rd, .reg rn, src] => s.sum rd rn src true true
  | .cmp, [.reg rn, src] => (s.compareFlags rn src true).map fun f => .next (s.setFlags f)
  | .cmn, [.reg rn, src] => (s.compareFlags rn src false).map fun f => .next (s.setFlags f)
  | .ccmp, [.reg rn, src, .imm nzcv, .cond c] => s.condCompare rn src nzcv.value c true
  | .ccmn, [.reg rn, src, .imm nzcv, .cond c] => s.condCompare rn src nzcv.value c false
  | .adr, [.reg rd, .label offset] => s.move rd (pc + BitVec.ofInt 64 offset)
  | .and, [.reg rd, .reg rn, src] => s.logical rd rn src .and false
  | .ands, [.reg rd, .reg rn, src] => s.logical rd rn src .and true
  | .orr, [.reg rd, .reg rn, src] => s.logical rd rn src .or false
  | .eor, [.reg rd, .reg rn, src] => s.logical rd rn src .xor false
  | .mov, [.reg rd, .reg rm] => do
    let v ← s.read rm
    s.move rd v
  | .movz, [.reg rd, .imm i] => s.move rd i.shifted
  | .movn, [.reg rd, .imm i] => s.move rd (~~~i.shifted)
  | .movk, [.reg rd, .imm i] => do
    let v ← s.read rd
    s.move rd ((v &&& ~~~((0xFFFF : Word) <<< i.shift)) ||| i.shifted)
  | .ldr, [.reg rt, .mem m] => s.load rt m (bits rt.width / 8)
  | .ldrb, [.reg rt, .mem m] => s.load rt m 1
  | .ldrh, [.reg rt, .mem m] => s.load rt m 2
  | .str, [.reg rt, .mem m] => s.store rt m (bits rt.width / 8)
  | .strb, [.reg rt, .mem m] => s.store rt m 1
  | .strh, [.reg rt, .mem m] => s.store rt m 2
  | .ldp, [.reg rt, .reg rt2, .mem m] => s.loadPair rt rt2 m (bits rt.width / 8)
  | .stp, [.reg rt, .reg rt2, .mem m] => s.storePair rt rt2 m (bits rt.width / 8)
  | .b, [.label offset] => some (.jump (BitVec.ofInt 64 offset) s)
  | .bcond, [.cond c, .label offset] => some (s.jumpIf c offset)
  | .ret, _ => some (.halt s)
  | .nop, _ => some (.next s)
  | _, _ => none

end State

/-! ## Running a stream -/

/-- How running a stream ended. Each ending keeps the state, so that two ways of running can be
compared. -/
inductive Ending where
  /-- By a return, or at the end of the stream. -/
  | halted (s : State)
  /-- By an access it may not make. -/
  | faulted (address : Word) (s : State)
  /-- At a word that is no instruction, or names a register that is not mapped. -/
  | refused (s : State)
  /-- At an offset where no instruction stands. -/
  | outside (offset : Word) (s : State)

/-- The word at an offset of a stream, if the offset is one of a whole word inside it. -/
def wordAt? (text : List Opcode) (offset : Word) : Option Opcode :=
  if offset.toNat % instructionSize = 0 then text[offset.toNat / instructionSize]? else none

/-- Sets the program counter, and changes nothing else. -/
def State.setPc (s : State) (pc : Word) : State :=
  { s with registers := { s.registers with pc := pc } }

/-- Runs a stream from an offset on, one instruction at a time and at most `fuel` of them. Each
instruction first sets the program counter to its own address. -/
def runFrom (text : List Opcode) (loadBias : Word) : Nat → State → Word → Option Ending
  | 0, _, _ => none
  | fuel + 1, s, offset =>
    if offset = BitVec.ofNat 64 (text.length * instructionSize) then some (.halted s)
    else
      match wordAt? text offset with
      | none => some (.outside offset s)
      | some word =>
        let pc := loadBias + offset
        match (decode word).bind fun inst => (s.setPc pc).step pc inst with
        | none => some (.refused (s.setPc pc))
        | some (.next s) =>
          runFrom text loadBias fuel s (offset + BitVec.ofNat 64 instructionSize)
        | some (.jump distance s) => runFrom text loadBias fuel s (offset + distance)
        | some (.halt s) => some (.halted s)
        | some (.fault address s) => some (.faulted address s)

end Dynarec.Guest
