import Dynarec.Host.Inst

/-!
# Decoding host instructions

Bytes are read by the rules of the host: an operand-size byte and an extension byte, an opcode, a
register or memory operand, and an immediate. What is left behind an instruction is given back, so
that code can be read one instruction after another.

## Main definitions

* `Dynarec.Host.Extension` — the extension byte.
* `Dynarec.Host.Place` — a register or memory operand.
* `Dynarec.Host.Decoded` — a decoded instruction or jump.
* `Dynarec.Host.decode` — the first instruction of bytes.
-/

set_option autoImplicit false

namespace Dynarec.Host

/-! ## Parts of an instruction -/

/-- Whether there is an extension byte, and its bits: wide operand, and the high bits of the three
register fields. -/
structure Extension where
  present : Bool := false
  wide : Bool := false
  reg : Bool := false
  index : Bool := false
  base : Bool := false
  deriving DecidableEq, Repr

/-- The bits of an extension byte. -/
def Extension.ofByte (b : Byte) : Extension where
  present := true
  wide := b.toNat / 8 % 2 = 1
  reg := b.toNat / 4 % 2 = 1
  index := b.toNat / 2 % 2 = 1
  base := b.toNat % 2 = 1

/-- Reads the extension byte, if there is one. -/
def readExtension : List Byte → Extension × List Byte
  | [] => ({}, [])
  | b :: rest => if b.toNat / 16 = 4 then (.ofByte b, rest) else ({}, b :: rest)

/-- The register with three low bits and a high bit. -/
def regOf (low : Nat) (high : Bool) : Reg :=
  .ofNumber (low % 8 + 8 * high.toNat)

/-- Whether a register field names the low byte of its register: without an extension byte, fields 4
to 7 name other bytes. -/
def Extension.namesLowByte (e : Extension) (r : Reg) : Bool :=
  e.present || r.val < 4

/-- A register operand, or the memory at a base register plus displacement. -/
inductive Place where
  | reg (r : Reg)
  | mem (base : Reg) (disp : BitVec 32)
  deriving DecidableEq, Repr

/-- Reads `n` bytes as a number. -/
def readNumber (n : Nat) (bytes : List Byte) : Option (Nat × List Byte) :=
  if bytes.length < n then none else some (ofLittleEndian (bytes.take n), bytes.drop n)

/-- Reads the displacement that a mode calls for. -/
def readDisplacement (mode : Nat) (bytes : List Byte) : Option (BitVec 32 × List Byte) :=
  match mode with
  | 0 => some (0, bytes)
  | 1 => (readNumber 1 bytes).map fun (n, rest) => ((BitVec.ofNat 8 n).signExtend 32, rest)
  | _ => (readNumber 4 bytes).map fun (n, rest) => (BitVec.ofNat 32 n, rest)

/-- Reads the base register of a memory operand: base field 4 calls for an extra byte, in which no
index may be named. -/
def readBase (e : Extension) (low : Nat) (bytes : List Byte) : Option (Reg × List Byte) :=
  if low ≠ 4 then some (regOf low e.base, bytes)
  else
    match bytes with
    | [] => none
    | b :: rest =>
      if b.toNat / 8 % 8 = 4 ∧ !e.index then some (regOf (b.toNat % 8) e.base, rest) else none

/-- Reads the two operands behind an opcode. Without displacement, base field 5 does not name a
register. -/
def readOperands (e : Extension) : List Byte → Option (Reg × Place × List Byte)
  | [] => none
  | b :: rest =>
    let mode := b.toNat / 64
    let reg := regOf (b.toNat / 8 % 8) e.reg
    if mode = 3 then some (reg, .reg (regOf (b.toNat % 8) e.base), rest)
    else do
      let (base, rest) ← readBase e (b.toNat % 8) rest
      if mode = 0 ∧ base.val % 8 = 5 then none
      else
        let (disp, rest) ← readDisplacement mode rest
        some (reg, .mem base disp, rest)

/-! ## Instructions -/

/-- A decoded instruction or jump. -/
inductive Decoded where
  | inst (i : Inst)
  | jump (j : Jump)
  deriving DecidableEq, Repr

/-- The instruction as decoding shows it: an absolute move is a move of its value. -/
def Inst.canonical : Inst → Inst
  | movAbs dst value => .movImm dst value
  | i => i

/-- The width of an operation. -/
def Extension.width (e : Extension) : Int :=
  if e.wide then 64 else 32

/-- An instruction between a register and a register or memory operand. -/
def readModRM (e : Extension) (bytes : List Byte) (f : Reg → Place → Option Inst) :
    Option (Decoded × List Byte) := do
  let (reg, place, rest) ← readOperands e bytes
  let i ← f reg place
  some (.inst i, rest)

/-- The operation in the register field of an instruction without a second register. -/
def operationField (reg : Reg) : Byte :=
  BitVec.ofNat 8 (reg.val % 8)

/-- An arithmetic operation with an immediate of one or four bytes, sign-extended. -/
def readAluImm (e : Extension) (size : Nat) (bytes : List Byte) : Option (Decoded × List Byte) := do
  let (reg, place, rest) ← readOperands e bytes
  let (n, rest) ← readNumber size rest
  match place with
  | .reg dst =>
    let value := (BitVec.ofNat (8 * size) n).signExtend 64
    some (.inst (.aluImm (.ofCode (operationField reg)) e.width dst value), rest)
  | .mem _ _ => none

/-- A shift by one, or by the byte behind it. -/
def readShift (e : Extension) (byOne : Bool) (bytes : List Byte) :
    Option (Decoded × List Byte) := do
  let (reg, place, rest) ← readOperands e bytes
  let (n, rest) ← if byOne then some (1, rest) else readNumber 1 rest
  match place with
  | .reg dst =>
    some (.inst (.shift (.ofCode (operationField reg)) e.width dst (BitVec.ofNat 8 n)), rest)
  | .mem _ _ => none

/-- A move of a four-byte immediate, sign-extended, to a register or to eight bytes of memory. -/
def readMovImm (e : Extension) (bytes : List Byte) : Option (Decoded × List Byte) := do
  let (reg, place, rest) ← readOperands e bytes
  let (n, rest) ← readNumber 4 rest
  if !e.wide ∨ reg.val ≠ 0 then none
  else
    match place with
    | .reg dst => some (.inst (.movImm dst ((BitVec.ofNat 32 n).signExtend 64)), rest)
    | .mem base disp => some (.inst (.storeImm base disp (BitVec.ofNat 32 n)), rest)

/-- An instruction with a one-byte opcode. `narrow` says that the operand-size byte was there; the
extension byte overrules it when it asks for the wide operand. -/
def decodeShort (narrow : Bool) (e : Extension) (op : Nat) (rest : List Byte) :
    Option (Decoded × List Byte) :=
  if op = 0x89 then
    readModRM e rest fun reg place =>
      match place with
      | .reg dst => if narrow ∧ !e.wide then none else some (.mov e.width dst reg)
      | .mem base disp =>
        some (.store base disp reg (if e.wide then 8 else if narrow then 2 else 4))
  else if narrow then none
  else if op = 0x88 then
    readModRM e rest fun reg place =>
      match place with
      | .reg _ => none
      | .mem base disp => if e.namesLowByte reg then some (.store base disp reg 1) else none
  else if op = 0x8B then
    readModRM e rest fun reg place =>
      match place with
      | .reg _ => none
      | .mem base disp => some (.load reg base disp (if e.wide then 8 else 4))
  else if op = 0x85 then
    readModRM e rest fun reg place =>
      match place with
      | .reg x => some (.test e.width x reg)
      | .mem _ _ => none
  else if op < 0x40 ∧ op % 8 = 1 then
    readModRM e rest fun reg place =>
      match place with
      | .reg dst => some (.alu (.ofCode (BitVec.ofNat 8 (op / 8))) e.width dst reg)
      | .mem _ _ => none
  else if op = 0x83 then readAluImm e 1 rest
  else if op = 0x81 then readAluImm e 4 rest
  else if op = 0xD1 then readShift e true rest
  else if op = 0xC1 then readShift e false rest
  else if op = 0xC7 then readMovImm e rest
  else if op / 8 = 0xB8 / 8 then do
    let (n, rest) ← readNumber (if e.wide then 8 else 4) rest
    some (.inst (.movImm (regOf (op % 8) e.base) (BitVec.ofNat 64 n)), rest)
  else if op = 0xEB then
    (readNumber 1 rest).map fun (n, rest) =>
      (.jump { cond := .always, rel := (BitVec.ofNat 8 n).signExtend 32, wide := false }, rest)
  else if op = 0xE9 then
    (readNumber 4 rest).map fun (n, rest) =>
      (.jump { cond := .always, rel := BitVec.ofNat 32 n, wide := true }, rest)
  else if op / 16 = 7 then
    (readNumber 1 rest).map fun (n, rest) =>
      (.jump
        { cond := ⟨BitVec.ofNat 8 (op % 16)⟩
          rel := (BitVec.ofNat 8 n).signExtend 32
          wide := false }, rest)
  else if op = 0x9F then some (.inst .lahf, rest)
  else if op = 0xC3 then some (.inst .ret, rest)
  else if op = 0x90 ∧ !e.base then some (.inst .nop, rest)
  else none

/-- An instruction with a two-byte opcode, behind its first byte. -/
def decodeLong (e : Extension) : List Byte → Option (Decoded × List Byte)
  | [] => none
  | b :: rest =>
    let op := b.toNat
    if op = 0xB6 then
      readModRM e rest fun reg place =>
        match place with
        | .reg _ => none
        | .mem base disp => some (.load reg base disp 1)
    else if op = 0xB7 then
      readModRM e rest fun reg place =>
        match place with
        | .reg src => some (.movzx16 reg src)
        | .mem base disp => some (.load reg base disp 2)
    else if op = 0xA3 then
      readModRM e rest fun reg place =>
        match place with
        | .reg base => if e.wide then some (.bt base reg) else none
        | .mem _ _ => none
    else if op / 16 = 9 then
      readModRM e rest fun _ place =>
        match place with
        | .reg dst =>
          if e.namesLowByte dst then some (.setcc ⟨BitVec.ofNat 8 (op % 16)⟩ dst) else none
        | .mem _ _ => none
    else if op / 16 = 8 then
      (readNumber 4 rest).map fun (n, rest) =>
        (.jump { cond := ⟨BitVec.ofNat 8 (op % 16)⟩, rel := BitVec.ofNat 32 n, wide := true }, rest)
    else none

/-- An instruction behind its operand-size byte. -/
def decodeOpcode (narrow : Bool) (bytes : List Byte) : Option (Decoded × List Byte) :=
  let (e, rest) := readExtension bytes
  match rest with
  | [] => none
  | b :: rest =>
    if b = 0x0F then (if narrow then none else decodeLong e rest)
    else decodeShort narrow e b.toNat rest

/-- The first instruction of bytes, and the bytes behind it. -/
def decode : List Byte → Option (Decoded × List Byte)
  | [] => none
  | b :: rest => if b = 0x66 then decodeOpcode true rest else decodeOpcode false (b :: rest)

end Dynarec.Host
