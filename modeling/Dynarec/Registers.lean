import Dynarec.Guest.Operand

/-!
# The register file

Compiled code keeps the guest registers in a page of 64-bit cells at a fixed host address. Only
four cells have a meaning: two general registers, the program counter and the flags.

## Main definitions

* `Dynarec.Cell` — the cells with a meaning, their names and addresses.
* `Dynarec.Registers` — the values of those cells.
* `Dynarec.RegisterFile` — the whole page of cells.
* `Dynarec.Cell.ofRegister?` — the cell of a guest register.
-/

set_option autoImplicit false

namespace Dynarec

/-! ## Cells -/

/-- A cell of the register file that has a meaning. Other guest registers have no cell and cannot
be compiled. -/
inductive Cell where
  | x0 | x1 | pc | nzcv
  deriving DecidableEq, Repr

namespace Cell

/-- The host address of the first cell. Compiled code has it as a constant. -/
def hostBase : Word := 0x7e0000000000

/-- The position of a cell, counted in words. -/
def index : Cell → Nat
  | x0 => 0
  | x1 => 1
  | pc => 2
  | nzcv => 3

/-- The host address of a cell: eight bytes for each cell in front of it. -/
def address (c : Cell) : Word :=
  hostBase + BitVec.ofNat 64 (8 * c.index)

/-- The cell at a position. -/
def ofIndex? : Nat → Option Cell
  | 0 => some x0
  | 1 => some x1
  | 2 => some pc
  | 3 => some nzcv
  | _ => none

/-- The cell at a host address, if it is the address of one. Addresses inside a cell are not. -/
def ofAddress? (a : Word) : Option Cell :=
  if a = x0.address then some x0
  else if a = x1.address then some x1
  else if a = pc.address then some pc
  else if a = nzcv.address then some nzcv
  else none

/-- The name of a cell. -/
def name : Cell → String
  | x0 => "x0"
  | x1 => "x1"
  | pc => "pc"
  | nzcv => "nzcv"

/-- The name of the cell at a position; positions without a meaning are numbered. -/
def nameAt (i : Int) : String :=
  match if 0 ≤ i then ofIndex? i.toNat else none with
  | some c => c.name
  | none => "cell(" ++ Text.decimalInt i ++ ")"

/-- The cell of a guest register. Only the first two general registers have one. -/
def ofRegister? (r : Guest.Register) : Option Cell :=
  match r.number with
  | 0 => some x0
  | 1 => some x1
  | _ => none

/-- The address of a cell names that cell. -/
@[simp] theorem ofAddress?_address (c : Cell) : ofAddress? c.address = some c := by
  cases c <;> decide

/-- The index of a cell names that cell. -/
@[simp] theorem ofIndex?_index (c : Cell) : ofIndex? c.index = some c := by
  cases c <;> rfl

end Cell

/-! ## Registers -/

/-- The guest registers, one word for each cell. -/
structure Registers where
  x0 : Word := 0
  x1 : Word := 0
  pc : Word := 0
  nzcv : Word := 0
  deriving DecidableEq, Repr

namespace Registers

/-- The registers after a reset: all clear but the zero flag. -/
def reset : Registers := { nzcv := 0x40000000 }

/-- The value of a cell, all 64 bits of it. -/
def get (r : Registers) : Cell → Word
  | .x0 => r.x0
  | .x1 => r.x1
  | .pc => r.pc
  | .nzcv => r.nzcv

/-- The registers with a cell replaced, all 64 bits of it. -/
def set (r : Registers) (c : Cell) (v : Word) : Registers :=
  match c with
  | .x0 => { r with x0 := v }
  | .x1 => { r with x1 := v }
  | .pc => { r with pc := v }
  | .nzcv => { r with nzcv := v }

/-- What is set in a cell is read from it, and the other cells are as before. -/
@[simp] theorem get_set (r : Registers) (c d : Cell) (v : Word) :
    (r.set c v).get d = if d = c then v else r.get d := by
  cases c <;> cases d <;> rfl

end Registers

/-! ## The page of cells -/

/-- The page that holds the register file: the registers, and cells behind them without a
meaning. -/
structure RegisterFile where
  registers : Registers := .reset
  spare : Array Word := Array.replicate 508 0

namespace RegisterFile

/-- The value of the cell at a position. -/
def get (f : RegisterFile) (i : Nat) : Word :=
  match Cell.ofIndex? i with
  | some c => f.registers.get c
  | none => f.spare.getD (i - 4) 0

/-- The page with the cell at a position replaced. -/
def set (f : RegisterFile) (i : Nat) (v : Word) : RegisterFile :=
  match Cell.ofIndex? i with
  | some c => { f with registers := f.registers.set c v }
  | none => { f with spare := f.spare.setIfInBounds (i - 4) v }

/-- The distance of the cell at a position from the first one. -/
def offset (i : Int) : Int :=
  8 * i

/-- Resets the registers and leaves the other cells alone. -/
def reset (f : RegisterFile) : RegisterFile :=
  { f with registers := .reset }

end RegisterFile

end Dynarec
