import Dynarec.Word

/-!
# Host registers

The host has sixteen general registers. Assembler text names them at four widths; code only ever
refers to the register behind a view.

## Main definitions

* `Dynarec.Host.Reg` — a register number.
* `Dynarec.Host.RegView` — a register together with a width, as one byte.
-/

set_option autoImplicit false

namespace Dynarec.Host

/-- A host register by its hardware number. -/
abbrev Reg := Fin 16

namespace Reg

/-- The register that the low four bits of a number name. -/
def ofNumber (n : Nat) : Reg :=
  Fin.ofNat 16 n

/-- The accumulator; also carries a block's exit kind. -/
abbrev rax : Reg := 0
/-- The count register. -/
abbrev rcx : Reg := 1
/-- The data register; also carries a block's exit parameter. -/
abbrev rdx : Reg := 2
/-- A register that code must leave alone. -/
abbrev rbx : Reg := 3
/-- The stack pointer. -/
abbrev rsp : Reg := 4
/-- The frame pointer. -/
abbrev rbp : Reg := 5
/-- The source index register. -/
abbrev rsi : Reg := 6
/-- The destination index register. -/
abbrev rdi : Reg := 7
/-- Extended register 8. -/
abbrev r8 : Reg := 8
/-- Extended register 9. -/
abbrev r9 : Reg := 9
/-- Extended register 10. -/
abbrev r10 : Reg := 10
/-- Extended register 11. -/
abbrev r11 : Reg := 11
/-- Extended register 12. -/
abbrev r12 : Reg := 12
/-- Extended register 13. -/
abbrev r13 : Reg := 13
/-- Extended register 14. -/
abbrev r14 : Reg := 14
/-- Extended register 15. -/
abbrev r15 : Reg := 15

/-- The registers whose names do not follow their number. -/
def oldNames : List String := ["ax", "cx", "dx", "bx", "sp", "bp", "si", "di"]

end Reg

/-- A register view: the register number in the low four bits, then two bits for the width. -/
structure RegView where
  code : Byte
  deriving DecidableEq, Repr

namespace RegView

/-- The register behind a view. -/
def reg (v : RegView) : Reg :=
  .ofNumber v.code.toNat

/-- The width of a view in bits. A code with bits above the width field counts as full width. -/
def width (v : RegView) : Nat :=
  match v.code.toNat / 16 with
  | 1 => 32
  | 2 => 16
  | 3 => 8
  | _ => 64

/-- The assembler name of a view. -/
def name (v : RegView) : String :=
  let number := v.reg.val
  let view := v.code.toNat / 16 % 4
  match Reg.oldNames[number]? with
  | some old =>
    match view with
    | 0 => "r" ++ old
    | 1 => "e" ++ old
    | 2 => old
    | _ => if number < 4 then String.ofList (old.toList.take 1) ++ "l" else old ++ "l"
  | none =>
    "r" ++ toString number ++
      match view with
      | 0 => ""
      | 1 => "d"
      | 2 => "w"
      | _ => "b"

end RegView

/-- The full-width name of a register. -/
def Reg.name (r : Reg) : String :=
  RegView.name ⟨BitVec.ofNat 8 r.val⟩

end Dynarec.Host
