import Dynarec.Host.Register

/-!
# Scratch registers

The code of one guest instruction claims host registers from a fixed pool, in order. Registers
outside the pool are never handed out, though they can be marked as in use. Nothing is ever
spilled.

## Main definitions

* `Dynarec.Lower.Scratch` — the set of registers in use.
* `Dynarec.Lower.Scratch.claim?` — the first free register of the pool.
-/

set_option autoImplicit false

namespace Dynarec.Lower

open Host (Reg)

/-- The registers in use, one bit a register. Registers outside the pool have bits too. -/
structure Scratch where
  used : BitVec 16 := 0
  deriving DecidableEq, Repr

namespace Scratch

/-- The registers that code may clobber, in the order they are handed out. -/
def pool : List Reg :=
  [.rax, .rcx, .rdx, .rsi, .rdi, .r8, .r9, .r10, .r11]

/-- Whether a register is in use, by a claim or because it was marked. -/
def inUse (s : Scratch) (r : Reg) : Bool :=
  s.used.getLsbD r.val

/-- Marks a register as in use. Marking it again changes nothing. -/
def reserve (s : Scratch) (r : Reg) : Scratch :=
  ⟨s.used ||| BitVec.twoPow 16 r.val⟩

/-- Marks a register as free, whoever marked it as in use. -/
def release (s : Scratch) (r : Reg) : Scratch :=
  ⟨s.used &&& ~~~BitVec.twoPow 16 r.val⟩

/-- Claims the first free register of the pool. There is none when all of the pool are in use. -/
def claim? (s : Scratch) : Option (Reg × Scratch) :=
  (pool.find? fun r => !s.inUse r).map fun r => (r, s.reserve r)

/-- The numbers of the registers in use. -/
def numbers (s : Scratch) : List Nat :=
  (List.range 16).filter fun i => s.used.getLsbD i

/-- After a register is marked as in use, it is in use and the others are as they were. -/
@[simp] theorem inUse_reserve (s : Scratch) (r q : Reg) :
    (s.reserve r).inUse q = (s.inUse q || decide (q = r)) := by
  simp [inUse, reserve, Fin.ext_iff, q.isLt]

/-- After a register is marked as free, it is free and the others are as they were. -/
@[simp] theorem inUse_release (s : Scratch) (r q : Reg) :
    (s.release r).inUse q = (s.inUse q && !decide (q = r)) := by
  simp [inUse, release, Fin.ext_iff, q.isLt]

end Scratch

end Dynarec.Lower
