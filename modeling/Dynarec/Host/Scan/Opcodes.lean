/-!
# Host opcodes and what stands behind them

The tables of host opcodes in 64-bit mode: one byte, or two or three bytes that start with 0F. For
each opcode they say whether an operand byte follows, which operand bytes make an instruction, and
how long the immediate is. Many vector opcodes are shared by up to four instructions, told apart by
a lead byte. The tables reach up to the fourth streaming extension.

## Main definitions

* `Dynarec.Host.Scan.Selector` — the lead bytes that tell instructions apart.
* `Dynarec.Host.Scan.Immediate` — the length of an immediate.
* `Dynarec.Host.Scan.Shape` — what stands behind an opcode.
* `Dynarec.Host.Scan.Row` — a range of opcodes of the same shapes.
* `Dynarec.Host.Scan.opcodes`, `opcodes0F`, `opcodes0F38`, `opcodes0F3A` — the tables.
-/

set_option autoImplicit false

namespace Dynarec.Host.Scan

/-! ## Shapes -/

/-- The lead byte that selects an instruction among those of an opcode. -/
inductive Selector where
  /-- No particular one. -/
  | plain
  | x66
  | xF3
  | xF2
  deriving DecidableEq, Repr

/-- The length of the immediate at the end of an instruction. -/
inductive Immediate where
  | bytes (n : Nat)
  /-- Two bytes with narrow operands, otherwise four. -/
  | operand
  /-- As many bytes as the operand: two, four or eight. -/
  | full
  /-- A whole address: four bytes with narrow addresses, otherwise eight. -/
  | address
  deriving DecidableEq, Repr

/-- What stands behind an opcode. -/
inductive Shape where
  /-- Only an immediate. -/
  | immediate (i : Immediate)
  /-- An operand byte, all it calls for, and an immediate. Some operand bytes are refused. -/
  | operands (i : Nat → Option Immediate)

/-- Whether a number is in one of some ranges, each given by its first and last member. -/
def within (ranges : List (Nat × Nat)) (n : Nat) : Bool :=
  ranges.any fun r => r.1 ≤ n && n ≤ r.2

/-- Whether an operand byte names memory. -/
def isMemory (b : Nat) : Bool :=
  b < 0xC0

/-- The middle field of an operand byte: a register, or a part of the opcode. -/
def middle (b : Nat) : Nat :=
  b / 8 % 8

namespace Shape

/-- Nothing at all. -/
def bare : Shape :=
  .immediate (.bytes 0)

/-- An immediate of one byte. -/
def byte : Shape :=
  .immediate (.bytes 1)

/-- An operand byte of some kind. -/
def only (accepts : Nat → Bool) (i : Immediate := .bytes 0) : Shape :=
  .operands fun b => if accepts b then some i else none

/-- Any operand byte. -/
def any (i : Immediate := .bytes 0) : Shape :=
  only (fun _ => true) i

/-- An operand byte that names memory. -/
def memory : Shape :=
  only isMemory

/-- An operand byte that names two registers. -/
def register (i : Immediate := .bytes 0) : Shape :=
  only (fun b => !isMemory b) i

/-- An operand byte with one of some middle fields. -/
def fields (ms : List Nat) (i : Immediate := .bytes 0) : Shape :=
  only (fun b => ms.contains (middle b)) i

/-- An operand byte with one of some middle fields that names memory. -/
def memoryFields (ms : List Nat) : Shape :=
  only fun b => isMemory b && ms.contains (middle b)

/-- An operand byte with one of some middle fields that names registers. -/
def registerFields (ms : List Nat) (i : Immediate := .bytes 0) : Shape :=
  only (fun b => !isMemory b && ms.contains (middle b)) i

/-- A floating-point instruction: with memory the middle field is part of the opcode, and without
it the whole operand byte is. -/
def float (ms : List Nat) (registers : List (Nat × Nat)) : Shape :=
  only fun b => if isMemory b then ms.contains (middle b) else within registers b

end Shape

/-- A range of opcodes of the same shapes, by the lead byte that selects among them. -/
structure Row where
  first : Nat
  last : Nat
  variants : List (Selector × Shape)

/-- One instruction for each opcode of a range, whatever the lead bytes. -/
def span (first last : Nat) (s : Shape) : Row :=
  ⟨first, last, [(.plain, s)]⟩

/-- One instruction, whatever the lead bytes. -/
def one (op : Nat) (s : Shape) : Row :=
  span op op s

/-- Two instructions of the same shape: with 66, and without. -/
def pair (first last : Nat) (s : Shape) : Row :=
  ⟨first, last, [(.x66, s), (.plain, s)]⟩

/-- Four instructions of the same shape. -/
def four (first last : Nat) (s : Shape) : Row :=
  ⟨first, last, [(.xF3, s), (.xF2, s), (.x66, s), (.plain, s)]⟩

/-- One instruction for each opcode of a range, with 66 only. -/
def behind66 (first last : Nat) (s : Shape) : Row :=
  ⟨first, last, [(.x66, s)]⟩

/-! ## Opcodes of one byte -/

/-- The opcodes of the eight two-operand arithmetic operations. -/
def arithmetic : List Row :=
  (List.range 8).flatMap fun k =>
    [span (8 * k) (8 * k + 3) .any, one (8 * k + 4) .byte, one (8 * k + 5) (.immediate .operand)]

/-- The floating-point opcodes. -/
def floats : List Row :=
  [one 0xD8 (.float [0, 1, 2, 3, 4, 5, 6, 7] [(0xC0, 0xFF)]),
    one 0xD9 (.float [0, 2, 3, 4, 5, 6, 7]
      [(0xC0, 0xD0), (0xE0, 0xE1), (0xE4, 0xE5), (0xE8, 0xEE), (0xF0, 0xFF)]),
    one 0xDA (.float [0, 1, 2, 3, 4, 5, 6, 7] [(0xC0, 0xDF), (0xE9, 0xE9)]),
    one 0xDB (.float [0, 1, 2, 3, 5, 7] [(0xC0, 0xDF), (0xE2, 0xE3), (0xE8, 0xF7)]),
    one 0xDC (.float [0, 1, 2, 3, 4, 5, 6, 7] [(0xC0, 0xCF), (0xE0, 0xFF)]),
    one 0xDD (.float [0, 1, 2, 3, 4, 6, 7] [(0xC0, 0xC7), (0xD0, 0xEF)]),
    one 0xDE (.float [0, 1, 2, 3, 4, 5, 6, 7] [(0xC0, 0xCF), (0xD9, 0xD9), (0xE0, 0xFF)]),
    one 0xDF (.float [0, 1, 2, 3, 4, 5, 6, 7] [(0xC0, 0xC7), (0xE0, 0xE0), (0xE8, 0xF7)])]

/-- A move of an immediate, or the transaction instruction that shares its opcode. -/
def moveOrTransaction (i : Immediate) : Shape :=
  .only (fun b => middle b = 0 || b = 0xF8) i

/-- A unary operation; only the first of them, a test, has an immediate. -/
def unary (i : Immediate) : Shape :=
  .operands fun b =>
    match middle b with
    | 0 => some i
    | 1 => none
    | _ => some (.bytes 0)

/-- The opcodes of one byte. -/
def opcodes : List Row :=
  arithmetic ++
  [span 0x50 0x5F .bare, one 0x63 .any, one 0x68 (.immediate .operand), one 0x69 (.any .operand),
    one 0x6A .byte, one 0x6B (.any (.bytes 1)), span 0x6C 0x6F .bare, span 0x70 0x7F .byte,
    one 0x80 (.any (.bytes 1)), one 0x81 (.any .operand), one 0x83 (.any (.bytes 1)),
    span 0x84 0x8B .any, one 0x8C (.fields [0, 1, 2, 3, 4, 5]), one 0x8D .memory,
    one 0x8E (.fields [0, 1, 2, 3, 4, 5]), one 0x8F (.fields [0]), span 0x90 0x99 .bare,
    span 0x9B 0x9F .bare, span 0xA0 0xA3 (.immediate .address), span 0xA4 0xA7 .bare,
    one 0xA8 .byte, one 0xA9 (.immediate .operand), span 0xAA 0xAF .bare, span 0xB0 0xB7 .byte,
    span 0xB8 0xBF (.immediate .full), span 0xC0 0xC1 (.fields [0, 1, 2, 3, 4, 5, 7] (.bytes 1)),
    one 0xC2 (.immediate (.bytes 2)), one 0xC3 .bare, one 0xC6 (moveOrTransaction (.bytes 1)),
    one 0xC7 (moveOrTransaction .operand), one 0xC8 (.immediate (.bytes 3)), one 0xC9 .bare,
    one 0xCA (.immediate (.bytes 2)), span 0xCB 0xCC .bare, one 0xCD .byte, one 0xCF .bare,
    span 0xD0 0xD3 (.fields [0, 1, 2, 3, 4, 5, 7]), one 0xD7 .bare, span 0xE0 0xE7 .byte,
    span 0xE8 0xE9 (.immediate (.bytes 4)), one 0xEB .byte, span 0xEC 0xEF .bare, one 0xF1 .bare,
    span 0xF4 0xF5 .bare, one 0xF6 (unary (.bytes 1)), one 0xF7 (unary .operand),
    span 0xF8 0xFD .bare, one 0xFE (.fields [0, 1]),
    one 0xFF
      (.only fun b => [0, 1, 2, 4, 6].contains (middle b) ||
        (isMemory b && [3, 5].contains (middle b)))] ++
  floats

/-! ## Opcodes of two bytes -/

/-- The system instructions that share an opcode, some of them with the whole operand byte. -/
def systemShape : Shape :=
  .only fun b =>
    within [(0xC8, 0xC9), (0xD0, 0xD1), (0xD5, 0xD6), (0xF8, 0xF9)] b ||
      [4, 6].contains (middle b) || (isMemory b && [0, 1, 2, 3, 7].contains (middle b))

/-- The memory forms and the three fences of an opcode that saves and restores state. -/
def isStateOrFence (b : Nat) : Bool :=
  isMemory b || b = 0xE8 || b = 0xF0 || b = 0xF8

/-- The shifts of packed numbers by an immediate. -/
def packedShifts : List Row :=
  let shift (ms : List Nat) : Shape := .registerFields ms (.bytes 1)
  [pair 0x71 0x72 (shift [2, 4, 6]),
    ⟨0x73, 0x73, [(.x66, shift [2, 3, 6, 7]), (.plain, shift [2, 6])]⟩]

/-- The opcodes behind 0F. -/
def opcodes0F : List Row :=
  [one 0x00 (.fields [0, 1, 2, 3, 4, 5]), one 0x01 systemShape, span 0x02 0x03 .any,
    span 0x05 0x09 .bare, one 0x0B .bare, one 0x0D (.memoryFields [1]), four 0x10 0x11 .any,
    ⟨0x12, 0x12, [(.xF3, .any), (.xF2, .any), (.x66, .memory), (.plain, .any)]⟩,
    pair 0x13 0x13 .memory, pair 0x14 0x15 .any,
    ⟨0x16, 0x16, [(.xF3, .any), (.x66, .memory), (.plain, .any)]⟩, pair 0x17 0x17 .memory,
    one 0x18 (.memoryFields [0, 1, 2, 3]), one 0x1F (.fields [0]), span 0x20 0x23 .any,
    pair 0x28 0x29 .any, four 0x2A 0x2A .any, four 0x2B 0x2B .memory, four 0x2C 0x2D .any,
    pair 0x2E 0x2F .any, span 0x30 0x35 .bare, span 0x40 0x4F .any, pair 0x50 0x50 .register,
    four 0x51 0x51 .any, ⟨0x52, 0x53, [(.xF3, .any), (.plain, .any)]⟩, pair 0x54 0x57 .any,
    four 0x58 0x5A .any, ⟨0x5B, 0x5B, [(.xF3, .any), (.x66, .any), (.plain, .any)]⟩,
    four 0x5C 0x5F .any, pair 0x60 0x6B .any, behind66 0x6C 0x6D .any, pair 0x6E 0x6E .any,
    ⟨0x6F, 0x6F, [(.xF3, .any), (.x66, .any), (.plain, .any)]⟩,
    four 0x70 0x70 (.any (.bytes 1))] ++
  packedShifts ++
  [pair 0x74 0x76 .any, one 0x77 .bare, ⟨0x7C, 0x7D, [(.xF2, .any), (.x66, .any)]⟩,
    ⟨0x7E, 0x7F, [(.xF3, .any), (.x66, .any), (.plain, .any)]⟩,
    span 0x80 0x8F (.immediate (.bytes 4)), span 0x90 0x9F .any, span 0xA0 0xA2 .bare,
    one 0xA3 .any, one 0xA4 (.any (.bytes 1)), one 0xA5 .any, span 0xA8 0xAA .bare, one 0xAB .any,
    one 0xAC (.any (.bytes 1)), one 0xAD .any,
    ⟨0xAE, 0xAE,
      [(.xF3, .only fun b => isStateOrFence b || [0, 1, 2, 3].contains (middle b)),
        (.plain, .only isStateOrFence)]⟩,
    one 0xAF .any, span 0xB0 0xB1 .any, one 0xB2 .memory, one 0xB3 .any, span 0xB4 0xB5 .memory,
    span 0xB6 0xB7 .any, ⟨0xB8, 0xB8, [(.xF3, .any)]⟩, one 0xB9 .bare,
    one 0xBA (.fields [4, 5, 6, 7] (.bytes 1)), span 0xBB 0xC1 .any,
    four 0xC2 0xC2 (.any (.bytes 1)), one 0xC3 .memory, pair 0xC4 0xC4 (.any (.bytes 1)),
    pair 0xC5 0xC5 (.register (.bytes 1)), pair 0xC6 0xC6 (.any (.bytes 1)),
    one 0xC7
      (.only fun b => middle b = 6 || (isMemory b && [1, 3, 4, 5].contains (middle b))),
    span 0xC8 0xCF .bare, ⟨0xD0, 0xD0, [(.xF2, .any), (.x66, .any)]⟩, pair 0xD1 0xD5 .any,
    ⟨0xD6, 0xD6, [(.xF3, .register), (.xF2, .register), (.x66, .any)]⟩,
    pair 0xD7 0xD7 .register, pair 0xD8 0xE5 .any,
    ⟨0xE6, 0xE6, [(.xF3, .any), (.xF2, .any), (.x66, .any)]⟩, pair 0xE7 0xE7 .memory,
    pair 0xE8 0xEF .any, ⟨0xF0, 0xF0, [(.xF2, .memory)]⟩, pair 0xF1 0xF6 .any,
    pair 0xF7 0xF7 .register, pair 0xF8 0xFE .any]

/-! ## Opcodes of three bytes -/

/-- The opcodes behind 0F 38. -/
def opcodes0F38 : List Row :=
  [pair 0x00 0x0B .any, behind66 0x10 0x10 .any, behind66 0x14 0x15 .any, behind66 0x17 0x17 .any,
    pair 0x1C 0x1E .any, behind66 0x20 0x25 .any, behind66 0x28 0x29 .any,
    behind66 0x2A 0x2A .memory, behind66 0x2B 0x2B .any, behind66 0x30 0x35 .any,
    behind66 0x37 0x41 .any, behind66 0x82 0x82 .memory, behind66 0xDB 0xDF .any,
    ⟨0xF0, 0xF1, [(.xF2, .any), (.plain, .memory)]⟩]

/-- The opcodes behind 0F 3A. All have an immediate of one byte. -/
def opcodes0F3A : List Row :=
  let operands : Shape := .any (.bytes 1)
  [behind66 0x08 0x0E operands, pair 0x0F 0x0F operands, behind66 0x14 0x17 operands,
    behind66 0x20 0x22 operands, behind66 0x40 0x42 operands, behind66 0x44 0x44 operands,
    behind66 0x60 0x63 operands, behind66 0xDF 0xDF operands]

/-- The shapes of an opcode in a table. -/
def variantsOf (table : List Row) (op : Nat) : List (Selector × Shape) :=
  match table.find? fun row => row.first ≤ op && op ≤ row.last with
  | some row => row.variants
  | none => []

end Dynarec.Host.Scan
