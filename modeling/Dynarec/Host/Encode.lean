import Dynarec.Host.Inst
import Dynarec.Text.Number

/-!
# Encoding host instructions

An instruction becomes an optional operand-size byte, an optional extension byte for wide operands
and high registers, an opcode, a register or memory form, and an immediate. An instruction whose
width, size or immediate has no encoding gives an error and no bytes.

## Main definitions

* `Dynarec.Host.EncodeError` — why an instruction has no encoding, with its wording.
* `Dynarec.Host.Inst.encode` — the bytes of an instruction.
* `Dynarec.Host.Jump.encode` — the bytes of a jump.
* `Dynarec.Host.Jump.size` — the length of a jump.
-/

set_option autoImplicit false

namespace Dynarec.Host

/-! ## Errors -/

/-- Why an instruction has no encoding. -/
inductive EncodeError where
  | width (width : Int)
  | loadSize (size : Int)
  | storeSize (size : Int)
  | immediate (value : Int)
  | shiftAmount (amount : Nat) (width : Int)
  | setCondition (code : Nat)
  | displacement (rel : Int)
  deriving DecidableEq, Repr

/-- The wording of an encoding error. -/
def EncodeError.message : EncodeError → String
  | width w => "unsupported operand width " ++ Text.decimalInt w
  | loadSize n => "unsupported load size " ++ Text.decimalInt n
  | storeSize n => "unsupported store size " ++ Text.decimalInt n
  | immediate v => "immediate " ++ Text.hexInt v ++ " does not fit in 32 bits"
  | shiftAmount amount w =>
    "shift amount " ++ Text.decimal amount ++ " out of range for width " ++ Text.decimalInt w
  | setCondition code => "setcc needs a condition, got " ++ Text.hex code
  | displacement rel => "displacement " ++ Text.decimalInt rel ++ " does not fit in rel8"

/-! ## Parts of an encoding -/

/-- The extension byte: wide operand, high bit of the register field, high bit of the base. -/
def rex (wide high highBase : Bool) : Byte :=
  BitVec.ofNat 8 (0x40 + 8 * wide.toNat + 4 * high.toNat + highBase.toNat)

/-- The bytes in front of an opcode. `reg` and `rm` are the numbers in the two register fields;
`force` asks for an extension byte where nothing else does. -/
def leading (width : Int) (reg rm : Nat) (force : Bool) : List Byte :=
  (if width = 16 then [0x66] else []) ++
    if width = 64 ∨ 8 ≤ reg ∨ 8 ≤ rm ∨ force then [rex (width = 64) (8 ≤ reg) (8 ≤ rm)] else []

/-- The mode byte: two bits of mode and the low three bits of each register field. -/
def modRM (mode reg rm : Nat) : Byte :=
  BitVec.ofNat 8 (64 * mode + 8 * (reg % 8) + rm % 8)

/-- The mode byte of a register operand. -/
def registerForm (reg rm : Nat) : Byte :=
  modRM 3 reg rm

/-- The memory operand at a base register plus displacement. A base whose low bits are 4 needs an
extra byte, and one whose low bits are 5 always carries a displacement. -/
def memoryForm (reg : Nat) (base : Reg) (disp : BitVec 32) : List Byte :=
  let extra : List Byte := if base.val % 8 = 4 then [0x24] else []
  if disp = 0 ∧ base.val % 8 ≠ 5 then modRM 0 reg base.val :: extra
  else if fitsInt8 disp.toInt then modRM 1 reg base.val :: extra ++ [disp.setWidth 8]
  else modRM 2 reg base.val :: extra ++ littleEndian 4 disp.toNat

/-- The long form of setting a register: eight immediate bytes. -/
def movAbsBytes (dst : Reg) (value : Word) : List Byte :=
  rex true false (8 ≤ dst.val) :: BitVec.ofNat 8 (0xB8 + dst.val % 8) ::
    littleEndian 8 value.toNat

/-- Whether an operand width is one that arithmetic has. -/
def isWidth (width : Int) : Bool :=
  width = 32 ∨ width = 64

/-! ## Instructions -/

/-- The bytes of an instruction, or why there are none. -/
def Inst.encode : Inst → Except EncodeError (List Byte)
  | mov width dst src =>
    if isWidth width then
      .ok (leading width src.val dst.val false ++ [0x89, registerForm src.val dst.val])
    else .error (.width width)
  | movImm dst value =>
    .ok <|
      if value.toNat < 0x100000000 then
        (if 8 ≤ dst.val then [rex false false true] else []) ++
          BitVec.ofNat 8 (0xB8 + dst.val % 8) :: littleEndian 4 value.toNat
      else if fitsInt32 value.toInt then
        rex true false (8 ≤ dst.val) :: 0xC7 :: registerForm 0 dst.val ::
          littleEndian 4 value.toNat
      else movAbsBytes dst value
  | movAbs dst value => .ok (movAbsBytes dst value)
  | load dst base disp size =>
    if size = 1 then
      .ok (leading 32 dst.val base.val false ++ [0x0F, 0xB6] ++ memoryForm dst.val base disp)
    else if size = 2 then
      .ok (leading 32 dst.val base.val false ++ [0x0F, 0xB7] ++ memoryForm dst.val base disp)
    else if size = 4 then
      .ok (leading 32 dst.val base.val false ++ [0x8B] ++ memoryForm dst.val base disp)
    else if size = 8 then
      .ok (leading 64 dst.val base.val false ++ [0x8B] ++ memoryForm dst.val base disp)
    else .error (.loadSize size)
  | store base disp src size =>
    if size = 1 then
      .ok (leading 8 src.val base.val (4 ≤ src.val) ++ [0x88] ++ memoryForm src.val base disp)
    else if size = 2 then
      .ok (leading 16 src.val base.val false ++ [0x89] ++ memoryForm src.val base disp)
    else if size = 4 then
      .ok (leading 32 src.val base.val false ++ [0x89] ++ memoryForm src.val base disp)
    else if size = 8 then
      .ok (leading 64 src.val base.val false ++ [0x89] ++ memoryForm src.val base disp)
    else .error (.storeSize size)
  | storeImm base disp imm =>
    .ok (leading 64 0 base.val false ++ [0xC7] ++ memoryForm 0 base disp ++
      littleEndian 4 imm.toNat)
  | alu op width dst src =>
    if isWidth width then
      .ok (leading width src.val dst.val false ++
        [BitVec.ofNat 8 (op.code.toNat * 8 + 1), registerForm src.val dst.val])
    else .error (.width width)
  | aluImm op width dst imm =>
    if !isWidth width then .error (.width width)
    else if !fitsInt32 imm.toInt then .error (.immediate imm.toInt)
    else
      .ok (leading width 0 dst.val false ++
        if fitsInt8 imm.toInt then [0x83, registerForm op.code.toNat dst.val, imm.setWidth 8]
        else 0x81 :: registerForm op.code.toNat dst.val :: littleEndian 4 imm.toNat)
  | test width x y =>
    if isWidth width then
      .ok (leading width y.val x.val false ++ [0x85, registerForm y.val x.val])
    else .error (.width width)
  | shift op width dst amount =>
    if !isWidth width then .error (.width width)
    else if width ≤ amount.toNat then .error (.shiftAmount amount.toNat width)
    else
      .ok (leading width 0 dst.val false ++
        if amount = 1 then [0xD1, registerForm op.code.toNat dst.val]
        else [0xC1, registerForm op.code.toNat dst.val, amount])
  | setcc cond dst =>
    if cond.code.toNat < 16 then
      .ok (leading 8 0 dst.val (4 ≤ dst.val) ++
        [0x0F, BitVec.ofNat 8 (0x90 + cond.code.toNat), registerForm 0 dst.val])
    else .error (.setCondition cond.code.toNat)
  | movzx16 dst src =>
    .ok (leading 32 dst.val src.val false ++ [0x0F, 0xB7, registerForm dst.val src.val])
  | bt base bit =>
    .ok (leading 64 bit.val base.val false ++ [0x0F, 0xA3, registerForm bit.val base.val])
  | lahf => .ok [0x9F]
  | ret => .ok [0xC3]
  | nop => .ok [0x90]

/-! ## Jumps -/

/-- The bytes of a jump. A displacement outside a signed byte needs the wide form. -/
def Jump.encode (j : Jump) : Except EncodeError (List Byte) :=
  if !j.wide && !fitsInt8 j.rel.toInt then .error (.displacement j.rel.toInt)
  else
    .ok <|
      if j.cond = .always then
        if j.wide then 0xE9 :: littleEndian 4 j.rel.toNat else [0xEB, j.rel.setWidth 8]
      else if j.wide then
        0x0F :: (0x80 ||| j.cond.code) :: littleEndian 4 j.rel.toNat
      else [0x70 ||| j.cond.code, j.rel.setWidth 8]

/-- The length of a jump in bytes. -/
def Jump.size (cond : Cond) (wide : Bool) : Nat :=
  if !wide then 2 else if cond = .always then 5 else 6

end Dynarec.Host
