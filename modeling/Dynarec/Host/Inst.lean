import Dynarec.Host.Register

/-!
# Host instructions

The host instructions that compiled code is made of, before they are encoded. Widths and sizes are
plain numbers here: which of them have an encoding is the encoder's business.

## Main definitions

* `Dynarec.Host.Cond` — a condition code of the host, including "always".
* `Dynarec.Host.AluOp`, `Dynarec.Host.ShiftOp` — the operation fields of the two instruction groups.
* `Dynarec.Host.Inst` — one instruction other than a jump.
* `Dynarec.Host.Jump` — one relative jump.
-/

set_option autoImplicit false

namespace Dynarec.Host

/-! ## Conditions and operations -/

/-- A host condition code. Codes below 16 test flags; code 16 always holds. -/
structure Cond where
  code : Byte
  deriving DecidableEq, Repr

namespace Cond

/-- The overflow flag is set. -/
def overflow : Cond := ⟨0x0⟩
/-- The carry flag is set. -/
def carry : Cond := ⟨0x2⟩
/-- The zero flag is set. -/
def equal : Cond := ⟨0x4⟩
/-- The zero flag is clear. -/
def notEqual : Cond := ⟨0x5⟩
/-- Below or equal as unsigned numbers: carry or zero is set. -/
def belowOrEqual : Cond := ⟨0x6⟩
/-- No condition. -/
def always : Cond := ⟨0x10⟩

end Cond

/-- The operation of a two-operand arithmetic instruction. -/
inductive AluOp where
  | add | or | and | sub | xor | cmp
  /-- A byte that is none of the operations in use. -/
  | other (code : Byte)
  deriving DecidableEq, Repr

namespace AluOp

/-- The operation field. -/
def code : AluOp → Byte
  | add => 0
  | or => 1
  | and => 4
  | sub => 5
  | xor => 6
  | cmp => 7
  | other c => c

/-- The operation with a field value. -/
def ofCode (c : Byte) : AluOp :=
  match c.toNat with
  | 0 => add
  | 1 => or
  | 4 => and
  | 5 => sub
  | 6 => xor
  | 7 => cmp
  | _ => other c

end AluOp

/-- The operation of a shift instruction. -/
inductive ShiftOp where
  | rol | ror | shl | shr | sar
  /-- A byte that is none of the operations in use. -/
  | other (code : Byte)
  deriving DecidableEq, Repr

namespace ShiftOp

/-- The operation field. -/
def code : ShiftOp → Byte
  | rol => 0
  | ror => 1
  | shl => 4
  | shr => 5
  | sar => 7
  | other c => c

/-- The operation with a field value. -/
def ofCode (c : Byte) : ShiftOp :=
  match c.toNat with
  | 0 => rol
  | 1 => ror
  | 4 => shl
  | 5 => shr
  | 7 => sar
  | _ => other c

end ShiftOp

/-! ## Instructions -/

/-- One host instruction other than a jump. -/
inductive Inst where
  /-- Copies a register; at width 32 the upper half of the destination is cleared. -/
  | mov (width : Int) (dst src : Reg)
  /-- Sets a register, in the shortest encoding. -/
  | movImm (dst : Reg) (value : Word)
  /-- Sets a register, always in the ten-byte encoding, as embedded addresses are. -/
  | movAbs (dst : Reg) (value : Word)
  /-- Loads `size` bytes, zero-extended. -/
  | load (dst base : Reg) (disp : BitVec 32) (size : Int)
  /-- Stores the low `size` bytes of a register. -/
  | store (base : Reg) (disp : BitVec 32) (src : Reg) (size : Int)
  /-- Stores a sign-extended immediate as eight bytes. -/
  | storeImm (base : Reg) (disp imm : BitVec 32)
  /-- Applies an operation to two registers. -/
  | alu (op : AluOp) (width : Int) (dst src : Reg)
  /-- Applies an operation to a register and a sign-extended immediate. -/
  | aluImm (op : AluOp) (width : Int) (dst : Reg) (imm : Word)
  /-- Sets the flags of the bitwise and of two registers. -/
  | test (width : Int) (x y : Reg)
  /-- Shifts a register by a constant. -/
  | shift (op : ShiftOp) (width : Int) (dst : Reg) (amount : Byte)
  /-- Sets the low byte of a register to 0 or 1. -/
  | setcc (cond : Cond) (dst : Reg)
  /-- Copies the low sixteen bits of a register, zero-extended. -/
  | movzx16 (dst src : Reg)
  /-- Copies a chosen bit of a register into the carry flag. -/
  | bt (base bit : Reg)
  /-- Copies the low flags into the second byte of the accumulator. -/
  | lahf
  /-- Returns to the caller of the code. -/
  | ret
  /-- Does nothing. -/
  | nop
  deriving DecidableEq, Repr

/-- A jump relative to its own end. -/
structure Jump where
  cond : Cond
  rel : BitVec 32
  /-- Whether the displacement takes four bytes instead of one. -/
  wide : Bool
  deriving DecidableEq, Repr

end Dynarec.Host
