import Dynarec.Guest.Operand

/-!
# Guest instructions

A guest instruction is an operation with its operands in assembler order. Operations are numbered;
a number without an operation is kept as it is.

## Main definitions

* `Dynarec.Guest.Op` — the guest operations.
* `Dynarec.Guest.Instruction` — an operation with operands.
-/

set_option autoImplicit false

namespace Dynarec.Guest

/-- The guest operations. -/
inductive Op where
  | unknown
  | add | adds | sub | subs
  | cmp | cmn | ccmp | ccmn
  | adr
  | and | ands | orr | eor
  | mov | movz | movn | movk
  | ldr | ldrb | ldrh | str | strb | strh | ldp | stp
  | b | bcond | ret | nop
  /-- A number that stands for no operation. -/
  | other (number : Int)
  deriving DecidableEq, Repr

namespace Op

/-- The operations with their numbers and names, in order of their numbers. -/
def named : List (Op × String) :=
  [(unknown, "unknown"), (add, "add"), (adds, "adds"), (sub, "sub"), (subs, "subs"),
    (cmp, "cmp"), (cmn, "cmn"), (ccmp, "ccmp"), (ccmn, "ccmn"), (adr, "adr"), (and, "and"),
    (ands, "ands"), (orr, "orr"), (eor, "eor"), (mov, "mov"), (movz, "movz"), (movn, "movn"),
    (movk, "movk"), (ldr, "ldr"), (ldrb, "ldrb"), (ldrh, "ldrh"), (str, "str"), (strb, "strb"),
    (strh, "strh"), (ldp, "ldp"), (stp, "stp"), (b, "b"), (bcond, "b.cond"), (ret, "ret"),
    (nop, "nop")]

/-- The operation with a number. -/
def ofNumber (n : Int) : Op :=
  match n with
  | .ofNat k =>
    match named[k]? with
    | some entry => entry.1
    | none => other n
  | .negSucc _ => other n

/-- The number of an operation. -/
def number : Op → Int
  | other n => n
  | op => named.findIdx (fun entry => entry.1 == op)

/-- The assembler name of an operation. -/
def name : Op → String
  | other n => "op(" ++ Text.decimalInt n ++ ")"
  | op =>
    match named.find? (fun entry => entry.1 == op) with
    | some entry => entry.2
    | none => ""

/-- Whether an operation ends the straight line it stands on. What follows a conditional branch
starts a line of its own, although it may be reached by falling through. -/
def endsLine : Op → Bool
  | b | bcond | ret => true
  | _ => false

end Op

/-- The size of every guest instruction in bytes. -/
def instructionSize : Nat := 4

/-- An operation with its operands in assembler order. Nothing here says that they fit together;
decoding gives only those that do. -/
structure Instruction where
  op : Op
  operands : List Operand := []
  deriving DecidableEq, Repr

namespace Instruction

/-- The assembler text of an instruction: its name, then the operands between commas. -/
def text (i : Instruction) : String :=
  match i.operands with
  | [] => i.op.name
  | operands => i.op.name ++ " " ++ ", ".intercalate (operands.map Operand.text)

end Instruction

end Dynarec.Guest
