import Dynarec.Guest.Condition
import Dynarec.Text.Number

/-!
# Guest operands

An instruction names registers, shifted registers, immediates, conditions, labels and memory
references. Register number 31 is the zero register, or the stack pointer where the operand says
so.

## Main definitions

* `Dynarec.Guest.Register` — a view of a general register.
* `Dynarec.Guest.Operand` — one operand of an instruction, with its text.
-/

set_option autoImplicit false

namespace Dynarec.Guest

/-! ## Registers -/

/-- The number of the zero register, which in some operands names the stack pointer instead. -/
def zeroNumber : Nat := 31

/-- A general register seen at some width. Views of one register at different widths share its
number. -/
structure Register where
  number : Nat
  /-- The width of the view in bits; decoded registers have 32 or 64. -/
  width : Int
  /-- Whether number 31 names the stack pointer. -/
  sp : Bool := false
  deriving DecidableEq, Repr

namespace Register

/-- The 64-bit view of a register, with number 31 as the zero register. -/
def x (n : Nat) : Register := { number := n, width := 64 }

/-- The 32-bit view of a register, with number 31 as the zero register. -/
def w (n : Nat) : Register := { number := n, width := 32 }

/-- Whether this is the zero register, which reads as zero and takes nothing. -/
def isZero (r : Register) : Bool :=
  r.number == zeroNumber && !r.sp

/-- The assembler name of a register at its width. -/
def name (r : Register) : String :=
  let narrow := r.width == 32
  if r.number == zeroNumber then
    if r.sp then
      if narrow then "wsp" else "sp"
    else
      if narrow then "wzr" else "xzr"
  else
    (if narrow then "w" else "x") ++ Text.decimal r.number

end Register

/-! ## Shifts -/

/-- The shift applied to a register operand: left, right by zeros, right by the sign, or around. -/
inductive ShiftKind where
  | lsl | lsr | asr | ror
  deriving DecidableEq, Repr

namespace ShiftKind

/-- The shift with the given two-bit code. -/
def ofCode (n : Nat) : ShiftKind :=
  match n % 4 with
  | 0 => lsl
  | 1 => lsr
  | 2 => asr
  | _ => ror

/-- The two-bit code of a shift. -/
def code : ShiftKind → Nat
  | lsl => 0
  | lsr => 1
  | asr => 2
  | ror => 3

/-- The assembler name of a shift. -/
def name : ShiftKind → String
  | lsl => "lsl"
  | lsr => "lsr"
  | asr => "asr"
  | ror => "ror"

/-- A kind of shift is read back from its code. -/
@[simp] theorem ofCode_code (k : ShiftKind) : ofCode k.code = k := by
  cases k <;> rfl

end ShiftKind

/-! ## Operands -/

/-- An unsigned immediate that stands for its value shifted left. -/
structure Immediate where
  value : Word
  shift : Nat := 0
  deriving DecidableEq, Repr

namespace Immediate

/-- The number an immediate stands for: its value, shifted. -/
def shifted (i : Immediate) : Word :=
  i.value <<< i.shift

/-- The assembler text of an immediate. -/
def text (i : Immediate) : String :=
  let value := "#" ++ Text.hexWord i.value
  if i.shift = 0 then value else value ++ ", lsl #" ++ Text.decimal i.shift

end Immediate

/-- A memory reference: base register and signed byte offset. The base is a 64-bit register, or
the stack pointer. -/
structure MemoryRef where
  base : Register
  offset : Int
  deriving DecidableEq, Repr

/-- One operand of a guest instruction, as decoding gives it and as the assembler writes it. -/
inductive Operand where
  | reg (r : Register)
  | shifted (r : Register) (kind : ShiftKind) (amount : Nat)
  | imm (i : Immediate)
  | cond (c : Condition)
  /-- A displacement in bytes from the instruction itself. -/
  | label (offset : Int)
  | mem (m : MemoryRef)
  /-- The place of an operand that is not there. -/
  | absent
  deriving DecidableEq, Repr

/-- The text of a label: its distance with a sign. The distance is a 64-bit number, so that of
the lowest displacement stays negative. -/
def labelText (offset : Int) : String :=
  if offset < 0 then ".-" ++ Text.hexInt (wrapInt64 (-offset))
  else ".+" ++ Text.hexInt offset

namespace Operand

/-- The assembler text of an operand. -/
def text : Operand → String
  | reg r => r.name
  | shifted r kind amount =>
    if amount = 0 then r.name
    else r.name ++ ", " ++ kind.name ++ " #" ++ Text.decimal amount
  | imm i => i.text
  | cond c => c.name
  | label offset => labelText offset
  | mem m =>
    if m.offset = 0 then "[" ++ m.base.name ++ "]"
    else "[" ++ m.base.name ++ ", #" ++ Text.decimalInt m.offset ++ "]"
  | absent => "<nil>"

/-- The registers an operand names, at most one. Code for the instruction needs a cell for each
of them. -/
def registers : Operand → List Register
  | reg r => [r]
  | shifted r _ _ => [r]
  | mem m => [m.base]
  | _ => []

end Operand

end Dynarec.Guest
