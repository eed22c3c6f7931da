import Dynarec.Host.Scan.Opcodes
import Dynarec.Word

/-!
# Cutting host code into instructions

Where an instruction ends can be told from its first bytes: lead bytes, an opcode, an operand byte
with what it calls for, and an immediate, fifteen bytes at most. Code is cut from its start on; a
byte at which no instruction starts stands for itself.

## Main definitions

* `Dynarec.Host.Scan.Lead` — what the bytes in front of an opcode say.
* `Dynarec.Host.Scan.length?` — the length of the instruction at the start of bytes.
* `Dynarec.Host.Scan.lines` — code cut into instructions, each with its offset.

## Main results

* `Dynarec.Host.Scan.flatten_lines` — the pieces make up the code.
-/

set_option autoImplicit false

namespace Dynarec.Host.Scan

/-! ## Lead bytes -/

/-- The vector extension at the start of an instruction: a choice of opcodes, and a selector. -/
structure VectorLead where
  /-- Whether this is the form of three bytes. -/
  long : Bool
  map : Nat
  selector : Selector
  deriving DecidableEq, Repr

/-- What the bytes in front of an opcode say. -/
structure Lead where
  vector : Option VectorLead := none
  /-- Whether 66 is among them. -/
  has66 : Bool := false
  /-- Whether 67 is among them: addresses are narrow. -/
  has67 : Bool := false
  /-- The last of F2 and F3 among them. -/
  rep : Option Selector := none
  /-- Whether operands are wide, which overrides 66. -/
  wide : Bool := false
  deriving DecidableEq, Repr

/-- The selector in the two low bits of a vector lead. -/
def Selector.ofBits (b : Byte) : Selector :=
  match b.toNat % 4 with
  | 1 => .x66
  | 2 => .xF3
  | 3 => .xF2
  | _ => .plain

/-- Reads the vector extension, if there is one with at least one byte behind its first. -/
def readVector : List Byte → Lead × List Byte
  | 0xC5#8 :: a :: rest => ({ vector := some ⟨false, 1, .ofBits a⟩ }, rest)
  | 0xC4#8 :: a :: b :: rest => ({ vector := some ⟨true, a.toNat % 4, .ofBits b⟩ }, rest)
  | bytes => ({}, bytes)

/-- What a lead byte adds; none when it is no lead byte. -/
def Lead.add? (l : Lead) (b : Byte) : Option Lead :=
  match b.toNat with
  | 0x66 => some { l with has66 := true }
  | 0x67 => some { l with has67 := true }
  | 0xF2 => some { l with rep := some .xF2 }
  | 0xF3 => some { l with rep := some .xF3 }
  | 0xF0 | 0x26 | 0x2E | 0x36 | 0x3E | 0x64 | 0x65 => some l
  | _ => none

/-- Reads lead bytes up to the first other byte. -/
def readLeads (l : Lead) : List Byte → Lead × List Byte
  | [] => (l, [])
  | b :: rest =>
    match l.add? b with
    | some l => readLeads l rest
    | none => (l, b :: rest)

/-- Reads the extension byte, which stands last and never with a vector extension. -/
def readWide (l : Lead) : List Byte → Lead × List Byte
  | [] => (l, [])
  | b :: rest =>
    if l.vector.isNone ∧ b.toNat / 16 = 4 then ({ l with wide := b.toNat / 8 % 2 = 1 }, rest)
    else (l, b :: rest)

/-- Reads all that stands in front of an opcode. -/
def readLead (bytes : List Byte) : Lead × List Byte :=
  let (l, bytes) := readVector bytes
  let (l, bytes) := readLeads l bytes
  readWide l bytes

/-! ## The shape of an instruction -/

/-- The shape that lead bytes select among those of an opcode. Of F2 and F3 the last one counts,
and it keeps 66 from selecting anything. -/
def Lead.select (l : Lead) (variants : List (Selector × Shape)) : Option Shape :=
  let otherwise := variants.lookup .plain
  match l.vector with
  | some v => (variants.lookup v.selector).or otherwise
  | none =>
    match l.rep with
    | some r =>
      match variants.lookup r with
      | some s => some s
      | none => if (variants.lookup .x66).isSome then none else otherwise
    | none => if l.has66 then (variants.lookup .x66).or otherwise else otherwise

/-- The shape of the opcodes that only a vector extension gives a meaning of its own; none when
there is no such instruction. -/
def VectorLead.shape? (v : VectorLead) (op : Nat) : Option Shape :=
  match op with
  | 0x77 => if v.map = 1 then some .bare else none
  | 0x6F | 0x7F =>
    if v.map = 1 ∧ (v.selector = .x66 ∨ v.selector = .xF3) then some .any else none
  | 0xE7 => if v.map = 1 ∧ v.selector = .x66 then some .memory else none
  | 0x2A => if v.map = 2 ∧ v.selector = .x66 then some .memory else none
  | _ => none

/-- Whether an opcode means something else behind a vector extension. -/
def VectorLead.changes (v : VectorLead) (op : Nat) : Bool :=
  [0x77, 0x6F, 0x7F, 0xE7].contains op || (v.long && op = 0x2A)

/-- The shape of an opcode of one byte. -/
def Lead.shortShape? (l : Lead) (op : Nat) : Option Shape :=
  match l.vector with
  | some v => if v.changes op then v.shape? op else l.select (variantsOf opcodes op)
  | none => l.select (variantsOf opcodes op)

/-- Reads an opcode: its shape, and the bytes behind it. -/
def Lead.readOpcode (l : Lead) : List Byte → Option (Shape × List Byte)
  | 0x0F#8 :: 0x38#8 :: op :: rest =>
    (l.select (variantsOf opcodes0F38 op.toNat)).map fun s => (s, rest)
  | 0x0F#8 :: 0x3A#8 :: op :: rest =>
    (l.select (variantsOf opcodes0F3A op.toNat)).map fun s => (s, rest)
  | 0x0F#8 :: op :: rest => (l.select (variantsOf opcodes0F op.toNat)).map fun s => (s, rest)
  | op :: rest => (l.shortShape? op.toNat).map fun s => (s, rest)
  | [] => none

/-! ## Lengths -/

/-- The length of a displacement, by mode and by whether the base field names no register. -/
def displacementSize (mode : Nat) (baseless : Bool) : Nat :=
  match mode with
  | 0 => if baseless then 4 else 0
  | 1 => 1
  | _ => 4

/-- The number of bytes that an operand byte calls for: low field 4 for a second byte, which then
holds the base field, and the mode for a displacement. -/
def addressSize (b : Nat) (rest : List Byte) : Option Nat :=
  if !isMemory b then some 0
  else if b % 8 = 4 then
    match rest with
    | [] => none
    | second :: _ => some (1 + displacementSize (b / 64) (second.toNat % 8 = 5))
  else some (displacementSize (b / 64) (b % 8 = 5))

/-- The number of bytes of an immediate. -/
def Lead.immediateSize (l : Lead) : Immediate → Nat
  | .bytes n => n
  | .operand => if l.has66 && !l.wide then 2 else 4
  | .full => if l.wide then 8 else if l.has66 then 2 else 4
  | .address => if l.has67 then 4 else 8

/-- The number of bytes behind an opcode, if they make an instruction. -/
def Lead.restSize (l : Lead) (bytes : List Byte) : Shape → Option Nat
  | .immediate i => some (l.immediateSize i)
  | .operands accepts =>
    match bytes with
    | [] => none
    | b :: rest => do
      let i ← accepts b.toNat
      let n ← addressSize b.toNat rest
      some (1 + n + l.immediateSize i)

/-- The most bytes that an instruction has. -/
def maxLength : Nat := 15

/-- The length of the instruction at the start of bytes, if there is a whole one. -/
def length? (bytes : List Byte) : Option Nat := do
  let window := bytes.take maxLength
  let (l, behindLead) := readLead window
  let (s, behindOpcode) ← l.readOpcode behindLead
  let n ← l.restSize behindOpcode s
  if behindOpcode.length < n then none else some (window.length - behindOpcode.length + n)

/-! ## Lines -/

/-- The number of bytes, less one, of the first piece of code. -/
def excess (bytes : List Byte) : Nat :=
  (length? bytes).getD 1 - 1

/-- The pieces of code that starts at an offset, each with its own. The first `skip` bytes belong to
a piece that is already there. -/
def linesFrom (offset skip : Nat) : List Byte → List (Nat × List Byte)
  | [] => []
  | b :: rest =>
    match skip with
    | skip + 1 => linesFrom (offset + 1) skip rest
    | 0 =>
      let more := excess (b :: rest)
      (offset, b :: rest.take more) :: linesFrom (offset + 1) more rest

/-- Code cut into instructions and bytes that start none, each with its offset. -/
def lines (code : List Byte) : List (Nat × List Byte) :=
  linesFrom 0 0 code

/-- Cutting loses nothing but the bytes that were skipped. -/
theorem flatten_linesFrom (offset skip : Nat) (code : List Byte) :
    ((linesFrom offset skip code).map Prod.snd).flatten = code.drop skip := by
  induction code generalizing offset skip with
  | nil => simp [linesFrom]
  | cons b rest ih =>
    cases skip with
    | zero => simp [linesFrom, ih]
    | succ skip => simp [linesFrom, ih]

/-- The pieces make up the code. -/
theorem flatten_lines (code : List Byte) : ((lines code).map Prod.snd).flatten = code :=
  flatten_linesFrom 0 0 code

end Dynarec.Host.Scan
