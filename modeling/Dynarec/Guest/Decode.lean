import Dynarec.Guest.BitMask
import Dynarec.Guest.Instruction

/-!
# Decoding guest instruction words

A word belongs to at most one of thirteen encoding classes, told apart by fixed fields. Each class
reads its operands from the remaining fields, and may reject some of their values.

Before a word is read here, a disassembler is asked whether the word is an instruction at all. That
disassembler and its tables are not part of this library. Everything that asks it takes it as a
parameter, of which no more is known than that it accepts each word that can be read here.

## Main definitions

* `Dynarec.Guest.field` — a bit field of a word as a number.
* `Dynarec.Guest.Form` — the encoding classes.
* `Dynarec.Guest.Form.of?` — the class of a word.
* `Dynarec.Guest.decode` — the instruction of a word.
* `Dynarec.Guest.Disassembler` — the disassembler that is asked first.
* `Dynarec.Guest.decodeAccepted` — the instruction of a word that the disassembler accepts.
-/

set_option autoImplicit false

namespace Dynarec.Guest

/-! ## Fields -/

/-- The number in the `len` bits of a word that start at bit `lo`. -/
def field (w : Opcode) (lo len : Nat) : Nat :=
  (w.extractLsb' lo len).toNat

/-- The signed number that `len` bits spell in two's complement. It is below half of what they
can count. -/
def signed (len v : Nat) : Int :=
  (BitVec.ofNat len v).toInt

/-- The register width chosen by the top bit of a word, in the classes that have both widths. -/
def widthOf (w : Opcode) : Nat :=
  if field w 31 1 = 1 then 64 else 32

/-! ## Encoding classes -/

/-- The encoding classes of the instructions understood here. Each class has its own fixed bits
and its own fields. -/
inductive Form where
  | nop | ret | branch | branchCond | address
  | addSubImm | addSubReg | logicalImm | logicalReg | moveWide
  | condCompare | loadStore | pair
  deriving DecidableEq, Repr

/-- The class of a word, by its fixed fields. The classes are tried one after the other, but
their fixed fields exclude each other. -/
def Form.of? (w : Opcode) : Option Form :=
  if w = 0xD503201F then some .nop
  else if field w 10 22 = 0x3597C0 ∧ field w 0 5 = 0 then some .ret
  else if field w 26 6 = 0b000101 then some .branch
  else if field w 24 8 = 0b01010100 ∧ field w 4 1 = 0 then some .branchCond
  else if field w 24 5 = 0b10000 ∧ field w 31 1 = 0 then some .address
  else if field w 23 6 = 0b100010 then some .addSubImm
  else if field w 24 5 = 0b01011 ∧ field w 21 1 = 0 then some .addSubReg
  else if field w 23 6 = 0b100100 then some .logicalImm
  else if field w 24 5 = 0b01010 then some .logicalReg
  else if field w 23 6 = 0b100101 then some .moveWide
  else if field w 21 9 = 0b111010010 ∧ field w 10 1 = 0 ∧ field w 4 1 = 0 then some .condCompare
  else if field w 27 3 = 0b111 ∧ field w 24 2 = 0b01 then some .loadStore
  else if field w 23 8 = 0b01010010 then some .pair
  else none

/-! ## Operands of each class -/

/-- The register whose number stands in the five bits from `lo`, at a width that the class
decides. -/
def registerAt (w : Opcode) (lo : Nat) (width : Nat) (sp : Bool := false) : Register where
  number := field w lo 5
  width := width
  sp := sp

/-- The base register and byte offset of a memory operand. The base may be the stack pointer. -/
def memoryAt (w : Opcode) (offset : Int) : Operand :=
  .mem { base := registerAt w 5 64 true, offset := offset }

/-- Sums with an immediate. Without a destination, those that set flags are compares. The stack
pointer can be an operand, and a destination unless flags are set. -/
def readAddSubImm (w : Opcode) : Instruction :=
  let width := widthOf w
  let sub := field w 30 1 = 1
  let rn := Operand.reg (registerAt w 5 width true)
  let value := Operand.imm
    { value := BitVec.ofNat 64 (field w 10 12), shift := if field w 22 1 = 1 then 12 else 0 }
  if field w 29 1 = 0 then
    { op := if sub then .sub else .add, operands := [.reg (registerAt w 0 width true), rn, value] }
  else if field w 0 5 = zeroNumber then
    { op := if sub then .cmp else .cmn, operands := [rn, value] }
  else
    { op := if sub then .subs else .adds, operands := [.reg (registerAt w 0 width), rn, value] }

/-- Sums of registers, the second one shifted. Rotations, and shifts by the width or more, are
rejected. -/
def readAddSubReg (w : Opcode) : Option Instruction :=
  let width := widthOf w
  let sub := field w 30 1 = 1
  let kind := ShiftKind.ofCode (field w 22 2)
  let amount := field w 10 6
  if kind = .ror ∨ (width = 32 ∧ 32 ≤ amount) then none
  else
    let rd := Operand.reg (registerAt w 0 width)
    let rn := Operand.reg (registerAt w 5 width)
    let rm := Operand.shifted (registerAt w 16 width) kind amount
    some <|
      if field w 29 1 = 0 then { op := if sub then .sub else .add, operands := [rd, rn, rm] }
      else if field w 0 5 = zeroNumber then
        { op := if sub then .cmp else .cmn, operands := [rn, rm] }
      else { op := if sub then .subs else .adds, operands := [rd, rn, rm] }

/-- The logical operation with a two-bit code. Only the last one sets flags. -/
def logicalOp (code : Nat) : Op :=
  match code with
  | 0 => .and
  | 1 => .orr
  | 2 => .eor
  | _ => .ands

/-- Logical operations with a bit mask. Fields that stand for no mask are rejected, and so are
elements of 64 bits in a register of 32. -/
def readLogicalImm (w : Opcode) : Option Instruction :=
  let width := widthOf w
  let n := field w 22 1
  if width = 32 ∧ n = 1 then none
  else
    match BitMask.expand n (field w 10 6) (field w 16 6) width with
    | none => none
    | some value =>
      let op := logicalOp (field w 29 2)
      some
        { op := op
          operands := [.reg (registerAt w 0 width (op != .ands)), .reg (registerAt w 5 width),
            .imm { value := value }] }

/-- Logical operations of registers, the second one shifted. An inclusive or of the zero register
with an unshifted one is a move. -/
def readLogicalReg (w : Opcode) : Option Instruction :=
  let width := widthOf w
  let amount := field w 10 6
  if field w 21 1 = 1 ∨ (width = 32 ∧ 32 ≤ amount) then none
  else
    let op := logicalOp (field w 29 2)
    let rd := Operand.reg (registerAt w 0 width)
    let rm := registerAt w 16 width
    if op = .orr ∧ field w 5 5 = zeroNumber ∧ amount = 0 then
      some { op := .mov, operands := [rd, .reg rm] }
    else
      some
        { op := op
          operands := [rd, .reg (registerAt w 5 width),
            .shifted rm (ShiftKind.ofCode (field w 22 2)) amount] }

/-- Moves of a 16-bit immediate into one of the fields of a register. A narrow register has only
two fields, and one code of the operation is not in use. -/
def readMoveWide (w : Opcode) : Option Instruction :=
  let width := widthOf w
  let place := field w 21 2
  let operands :=
    [Operand.reg (registerAt w 0 width),
      .imm { value := BitVec.ofNat 64 (field w 5 16), shift := place * 16 }]
  if width = 32 ∧ 2 ≤ place then none
  else
    match field w 29 2 with
    | 0 => some { op := .movn, operands := operands }
    | 2 => some { op := .movz, operands := operands }
    | 3 => some { op := .movk, operands := operands }
    | _ => none

/-- Conditional compares with a register or a five-bit immediate. Nothing is rejected here. -/
def readCondCompare (w : Opcode) : Instruction :=
  let width := widthOf w
  let second :=
    if field w 11 1 = 1 then Operand.imm { value := BitVec.ofNat 64 (field w 16 5) }
    else Operand.reg (registerAt w 16 width)
  { op := if field w 30 1 = 1 then .ccmp else .ccmn
    operands := [.reg (registerAt w 5 width), second,
      .imm { value := BitVec.ofNat 64 (field w 0 4) }, .cond ⟨BitVec.ofNat 8 (field w 12 4)⟩] }

/-- Loads and stores of one register. Vector registers, sign-extending loads and prefetches are
rejected. -/
def readLoadStore (w : Opcode) : Option Instruction :=
  let size := field w 30 2
  let load := field w 22 2 = 1
  if field w 26 1 = 1 ∨ 2 ≤ field w 22 2 then none
  else
    let op : Op :=
      match size with
      | 0 => if load then .ldrb else .strb
      | 1 => if load then .ldrh else .strh
      | _ => if load then .ldr else .str
    some
      { op := op
        operands := [.reg (registerAt w 0 (if size = 3 then 64 else 32)),
          memoryAt w ((field w 10 12 <<< size : Nat) : Int)] }

/-- Loads and stores of two registers. The offset is counted in registers, and signed. -/
def readPair (w : Opcode) : Instruction :=
  let width := widthOf w
  let scale : Int := if width = 64 then 8 else 4
  { op := if field w 22 1 = 1 then .ldp else .stp
    operands := [.reg (registerAt w 0 width), .reg (registerAt w 10 width),
      memoryAt w (signed 7 (field w 15 7) * scale)] }

/-! ## Decoding -/

/-- The instruction of a word of the given class, or none if the class rejects a field. -/
def Form.read (w : Opcode) : Form → Option Instruction
  | .nop => some { op := .nop }
  | .ret => some { op := .ret, operands := [.reg (registerAt w 5 64)] }
  | .branch => some { op := .b, operands := [.label (signed 26 (field w 0 26) * 4)] }
  | .branchCond =>
    some
      { op := .bcond
        operands := [.cond ⟨BitVec.ofNat 8 (field w 0 4)⟩, .label (signed 19 (field w 5 19) * 4)] }
  | .address =>
    some
      { op := .adr
        operands := [.reg (registerAt w 0 64),
          .label (signed 21 (field w 5 19 * 4 + field w 29 2))] }
  | .addSubImm => some (readAddSubImm w)
  | .addSubReg => readAddSubReg w
  | .logicalImm => readLogicalImm w
  | .logicalReg => readLogicalReg w
  | .moveWide => readMoveWide w
  | .condCompare => some (readCondCompare w)
  | .loadStore => readLoadStore w
  | .pair => some (readPair w)

/-- The instruction of a word, if the word is understood. -/
def decode (w : Opcode) : Option Instruction := do
  let form ← Form.of? w
  form.read w

/-! ## Asking the disassembler -/

/-- The disassembler that is asked about a word before the word is read. It knows all instructions
of the guest, also those that are not understood here, so it accepts every word that is. -/
class Disassembler where
  /-- Whether a word is an instruction of the guest. -/
  accepts : Opcode → Bool
  accepts_of_decode {w : Opcode} {inst : Instruction} : decode w = some inst → accepts w = true

/-- The least disassembler: it accepts the words that are understood here and no others. -/
abbrev Disassembler.least : Disassembler where
  accepts w := (decode w).isSome
  accepts_of_decode h := by rw [h]; rfl

/-- The instruction of a word, if the disassembler accepts the word and it is understood here. -/
def decodeAccepted [Disassembler] (w : Opcode) : Option Instruction :=
  if Disassembler.accepts w then decode w else none

/-- Asking first makes no difference: what is refused could not have been read. -/
@[simp] theorem decodeAccepted_eq [Disassembler] (w : Opcode) : decodeAccepted w = decode w := by
  unfold decodeAccepted
  split
  · rfl
  · rename_i hrefused
    cases hdecode : decode w with
    | none => rfl
    | some inst => exact absurd (Disassembler.accepts_of_decode hdecode) hrefused

end Dynarec.Guest
