import Dynarec.Lower.Instruction
import Dynarec.Proofs.Guest.Regular
import Dynarec.Proofs.Lower.Access
import Dynarec.Proofs.Lower.Compare
import Dynarec.Proofs.Lower.Move

/-!
# The code of an instruction

Every instruction that decoding gives is lowered as it is meant: its code has the effect of the
instruction on the guest, in sound memory, and lowering fails only for registers that are not mapped
or for want of scratch registers.

## Main results

* `Dynarec.Lower.instruction_performs` — the code of an access, in any memory.
* `Dynarec.Lower.instruction_realizes_of_pure` — the code of any other instruction.
* `Dynarec.Lower.instruction_realizes` — the code of an instruction.
-/

set_option autoImplicit false

namespace Dynarec

namespace Lower

open Host (Reg Inst State AluOp)
open Code (Walked walk)
open Guest (Operand Register Instruction MemoryRef Regular accessEffect access?_spec bits)

/-! ## Accesses -/

/-- Accesses of a whole register move as many bytes as the width has. -/
theorem isAccess_bits (width : Int) : IsAccess (bits width / 8) := by
  obtain h | h := Guest.bits_cases width
  · exact .inr (.inr (.inl (by rw [h])))
  · exact .inr (.inr (.inr (by rw [h])))

/-- The number of bytes of an operand width, as it is computed from the width. -/
theorem tdiv_width {width : Int} (hw : Host.isWidth width) :
    width.tdiv 8 = (bits width / 8 : Nat) := by
  obtain rfl | rfl : width = 32 ∨ width = 64 := by simpa [Host.isWidth] using hw
  · rfl
  · rfl

/-- The code of an instruction performs an access, whatever memory it is emitted for. -/
def Accesses (pc : Word) (inst : Instruction) (write : Bool) (m : MemoryRef) (n : Nat) : Prop :=
  ∃ after, (∀ g : Guest.State, g.step pc inst = accessEffect write m n after g) ∧
    ∀ mem e, Lowers (instruction pc (some mem) inst) e
      (fun _ e' w => e'.goesOn = true ∧ ∀ s, Performs mem write m n after w s)
      (Refused inst.named 7 e.scratch)

section Shapes

variable {pc : Word} {o : Guest.Op} {rt rt2 : Register} {m : MemoryRef} {n : Nat}

/-- Loads of one register are accesses. The operations differ in the number of bytes only. -/
theorem load_accesses (hn : IsAccess n) (hsize : accessSize o rt = n) (hw : Host.isWidth rt.width)
    (hfits : 8 * n ≤ bits rt.width) (hends : o ≠ .ret)
    (hstep : ∀ g : Guest.State, g.step pc { op := o, operands := [.reg rt, .mem m] } =
      g.load rt m n)
    (hlower : ∀ mem, instruction pc mem { op := o, operands := [.reg rt, .mem m] } =
      load { op := o, operands := [.reg rt, .mem m] } mem) :
    Accesses pc { op := o, operands := [.reg rt, .mem m] } false m n := by
  refine ⟨_, fun g => (hstep g).trans (Guest.load_effect g rt m n), fun mem e => ?_⟩
  rw [hlower, named_of_ne hends]
  exact load_lowers m hn hsize hw hfits mem e

/-- Stores of one register are accesses. -/
theorem store_accesses (hn : IsAccess n) (hsize : accessSize o rt = n) (hends : o ≠ .ret)
    (hstep : ∀ g : Guest.State, g.step pc { op := o, operands := [.reg rt, .mem m] } =
      g.store rt m n)
    (hlower : ∀ mem, instruction pc mem { op := o, operands := [.reg rt, .mem m] } =
      store { op := o, operands := [.reg rt, .mem m] } mem) :
    Accesses pc { op := o, operands := [.reg rt, .mem m] } true m n := by
  refine ⟨_, fun g => (hstep g).trans (Guest.store_effect g rt m n), fun mem e => ?_⟩
  rw [hlower, named_of_ne hends]
  exact store_lowers m hn hsize mem e

/-- Loads of two registers are accesses to twice the bytes of one. -/
theorem loadPair_accesses (hw : Host.isWidth rt.width) (hw2 : rt2.width = rt.width) :
    Accesses pc { op := .ldp, operands := [.reg rt, .reg rt2, .mem m] } false m
      (2 * (bits rt.width / 8)) := by
  refine ⟨_, fun g => Guest.loadPair_effect g rt rt2 m _, fun mem e => ?_⟩
  rw [named_of_ne (by simp)]
  exact loadPair_lowers m (isAccess_bits _) (tdiv_width hw) hw hw2 (Nat.mul_div_le _ _) mem e

/-- Stores of two registers are accesses to twice the bytes of one. -/
theorem storePair_accesses (hw : Host.isWidth rt.width) :
    Accesses pc { op := .stp, operands := [.reg rt, .reg rt2, .mem m] } true m
      (2 * (bits rt.width / 8)) := by
  refine ⟨_, fun g => Guest.storePair_effect g rt rt2 m _, fun mem e => ?_⟩
  rw [named_of_ne (by simp)]
  exact storePair_lowers m (isAccess_bits _) (tdiv_width hw) mem e

end Shapes

/-- **The code of an access performs it**, in any memory.

**Proof sketch.** One case for each shape of instruction. A narrow access is made with a
register of 32 bits. -/
theorem instruction_performs {inst : Instruction} (h : Regular inst) {write : Bool} {m : MemoryRef}
    {n : Nat} (hacc : inst.access? = some (write, m, n)) (pc : Word) :
    Accesses pc inst write m n := by
  cases h with
  | @word o rt m' hop hw =>
    obtain rfl | rfl := hop
    · cases hacc
      exact load_accesses (isAccess_bits _) (tdiv_width hw) hw (Nat.mul_div_le _ _) (by simp)
        (fun _ => rfl) fun _ => rfl
    · cases hacc
      exact store_accesses (isAccess_bits _) (tdiv_width hw) (by simp) (fun _ => rfl) fun _ => rfl
  | @narrow o rt m' hop hw =>
    have hwidth : Host.isWidth rt.width := by simp [hw, Host.isWidth]
    have hbits : bits rt.width = 32 := by rw [hw]; rfl
    obtain rfl | rfl | rfl | rfl := hop
    · cases hacc
      exact load_accesses (.inl rfl) rfl hwidth (by omega) (by simp) (fun _ => rfl) fun _ => rfl
    · cases hacc
      exact load_accesses (.inr (.inl rfl)) rfl hwidth (by omega) (by simp) (fun _ => rfl)
        fun _ => rfl
    · cases hacc
      exact store_accesses (.inl rfl) rfl (by simp) (fun _ => rfl) fun _ => rfl
    · cases hacc
      exact store_accesses (.inr (.inl rfl)) rfl (by simp) (fun _ => rfl) fun _ => rfl
  | @pair o rt rt2 m' hop hw hw2 =>
    obtain rfl | rfl := hop
    · cases hacc
      exact loadPair_accesses hw hw2
    · cases hacc
      exact storePair_accesses hw
  | sum hop | logical hop => obtain rfl | rfl | rfl | rfl := hop <;> cases hacc
  | compare hop | condCompare hop => obtain rfl | rfl := hop <;> cases hacc
  | moveWide hop => obtain rfl | rfl | rfl := hop <;> cases hacc
  | move | address | branch | branchCond | ret | nop => cases hacc

/-- An access is lowered as it is meant, in sound memory (`Performs.shows`). -/
theorem Accesses.realizes {pc : Word} {inst : Instruction} {write : Bool} {m : MemoryRef} {n : Nat}
    (h : Accesses pc inst write m n) (hacc : inst.access? = some (write, m, n)) (mem : Memory) :
    Realizes (instruction pc (some mem) inst) pc inst
      fun s => mem.Sound ∧ mem.Alike s.memory := by
  obtain ⟨after, hstep, hlower⟩ := h
  obtain ⟨hn, hsmall, hends, -⟩ := access?_spec hacc
  intro e
  refine (hlower mem e).mono ?_ fun f hf => hf
  rintro _ e' w ⟨hgoes, hrun⟩
  refine ⟨by simp [hgoes, hends], fun s => ?_⟩
  rw [hstep]
  exact (hrun s).shows hn hsmall

/-! ## Branches -/

/-- The code of a branch, for operands of the right kinds. -/
theorem branch_eq (offset : Int) :
    branch { op := .b, operands := [.label offset] } = exit .branch (BitVec.ofInt 64 offset) := by
  simp [branch, wantOperands, labelAt, operandAt]

/-- **Branches** are lowered as they are meant. -/
theorem branch_realizes {offset : Int} {pc : Word} :
    Realizes (branch { op := .b, operands := [.label offset] }) pc
      { op := .b, operands := [.label offset] } fun _ => True := by
  intro e
  rw [branch_eq]
  refine (exit_lowers .branch _ e _).mono ?_ fun f hf => hf
  rintro _ e' w ⟨hadds, hexit⟩
  refine ⟨hadds.goesOn, fun s => ⟨_, rfl, fun _ => ?_⟩⟩
  obtain ⟨u, hu, hleft⟩ := hexit s
  rw [hu]
  exact .jump hleft

/-- The code of a conditional branch, for operands of the right kinds. A condition that is always
true is not tested. -/
theorem branchCond_eq (cond : Guest.Condition) (offset : Int) :
    branchCond { op := .bcond, operands := [.cond cond, .label offset] } =
      if cond.isAlways then exit .branch (BitVec.ofInt 64 offset)
      else (do
        let notTaken ← newLabel
        branchIf cond.invert notTaken
        exit .branch (BitVec.ofInt 64 offset)
        bindLabel notTaken) := by
  simp [branchCond, wantOperands, conditionAt, labelAt, operandAt]

/-- **Conditional branches** are lowered as they are meant.

**Proof sketch.** The code leaves the block unless it jumps over the exit, which it does where
the inverse of the condition holds. The inverse of a condition that is not always true is its
negation (`holds_invert`). -/
theorem branchCond_realizes {cond : Guest.Condition} {offset : Int} {pc : Word} :
    Realizes (branchCond { op := .bcond, operands := [.cond cond, .label offset] }) pc
      { op := .bcond, operands := [.cond cond, .label offset] } fun _ => True := by
  intro e
  rw [branchCond_eq]
  have hexit := exit_lowers .branch (BitVec.ofInt 64 offset)
  split
  · rename_i halways
    refine (hexit e _).mono ?_ fun f hf => hf
    rintro _ e' w ⟨hadds, hexit⟩
    refine ⟨hadds.goesOn, fun s => ⟨_, rfl, fun _ => ?_⟩⟩
    obtain ⟨u, hu, hleft⟩ := hexit s
    rw [hu, Guest.State.jumpIf, holds_of_isAlways halways]
    exact .jump hleft
  · rename_i hsome
    have hinvert := holds_invert (Bool.eq_false_iff.2 hsome)
    refine .jumpOver ((branchIf_branches cond.invert _ _).mono (fun _ _ _ => id)
      fun f hf => hf.mono (by simp) (by omega)) ?_
    rintro e₁ w₁ c ⟨-, hgoes, hbranch⟩
    refine (hexit e₁ _).mono ?_ fun f hf => hf
    rintro _ e₂ w₂ ⟨hadds, hexit⟩
    refine ⟨hadds.length.trans (Nat.add_le_add_left (by decide) _), hadds.goesOn.trans hgoes, ?_⟩
    intro s
    obtain ⟨t, ht, hheld, hguest, hholds⟩ := hbranch s
    refine ⟨_, rfl, fun _ => ?_⟩
    rw [Meaning.andThen_of_fell ht, Meaning.ifElse, hholds, hinvert, Guest.State.jumpIf]
    cases cond.holds s.guest.flags with
    | true =>
      obtain ⟨u, hu, hleft⟩ := hexit t
      rw [hguest] at hleft
      simp only [Bool.not_true, Bool.false_eq_true, if_false, if_true, hu]
      exact .jump (hleft.of_held hheld)
    | false =>
      simp only [Bool.not_false, Bool.false_eq_true, if_false, if_true, ← hguest]
      exact .next hheld.empty

/-- **Returns** are lowered as they are meant. -/
theorem ret_realizes {operands : List Operand} {pc : Word} :
    Realizes (exit .halt 0) pc { op := .ret, operands := operands } fun _ => True := by
  intro e
  refine (exit_lowers .halt 0 e _).mono ?_ fun f hf => hf
  rintro _ e' w ⟨hadds, hexit⟩
  refine ⟨hadds.goesOn, fun s => ⟨.halt s.guest, rfl, fun _ => ?_⟩⟩
  obtain ⟨u, hu, hleft⟩ := hexit s
  rw [hu]
  exact .halt hleft

/-- An instruction that does nothing is lowered to no code. -/
theorem nop_realizes {pc : Word} : Realizes goOn pc { op := .nop } fun _ => True := by
  intro e
  refine .update rfl ⟨rfl, fun s => ⟨.next s.guest, rfl, fun _ => .next (.refl _ s)⟩⟩

/-! ## All instructions -/

/-- Code that shows an effect for some host states shows it for fewer. -/
theorem Realizes.mono {act : Emit Unit} {pc : Word} {inst : Instruction} {pre pre' : State → Prop}
    (h : Realizes act pc inst pre) (hpre : ∀ s, pre' s → pre s) : Realizes act pc inst pre' := by
  intro e
  refine (h e).mono ?_ fun f hf => hf
  rintro _ e' w ⟨hgoes, hrun⟩
  refine ⟨hgoes, fun s => ?_⟩
  obtain ⟨effect, hstep, hshows⟩ := hrun s
  exact ⟨effect, hstep, fun hs => hshows (hpre s hs)⟩

/-- The code of an instruction that accesses no memory shows its effect, with whatever memory it is
emitted.

**Proof sketch.** By the shape of the instruction: each shape has its own lemma, and those with
an access are none of them. -/
theorem instruction_realizes_of_pure {inst : Instruction} (h : Regular inst)
    (hacc : inst.access? = none) (pc : Word) (mem : Option Memory) :
    Realizes (instruction pc mem inst) pc inst fun _ => True := by
  cases h with
  | sum hop hw hsrc =>
    obtain rfl | rfl | rfl | rfl := hop
    · exact sum_realizes hw hsrc false false (fun _ => rfl) rfl
    · exact sum_realizes hw hsrc false true (fun _ => rfl) rfl
    · exact sum_realizes hw hsrc true false (fun _ => rfl) rfl
    · exact sum_realizes hw hsrc true true (fun _ => rfl) rfl
  | compare hop hw hsrc =>
    obtain rfl | rfl := hop
    · exact compare_realizes hw hsrc false (fun _ => rfl) rfl
    · exact compare_realizes hw hsrc true (fun _ => rfl) rfl
  | condCompare hop hw hsrc hnzcv =>
    obtain rfl | rfl := hop
    · exact condCompare_realizes hw hsrc hnzcv false (fun _ => rfl) rfl
    · exact condCompare_realizes hw hsrc hnzcv true (fun _ => rfl) rfl
  | logical hop hw hsrc =>
    obtain rfl | rfl | rfl | rfl := hop
    · exact logical_realizes hw hsrc .and false (fun _ _ _ _ => rfl) (fun _ => rfl) rfl
    · exact logical_realizes hw hsrc .and true (fun _ _ _ _ => rfl) (fun _ => rfl) rfl
    · exact logical_realizes hw hsrc .or false (fun _ _ _ _ => rfl) (fun _ => rfl) rfl
    · exact logical_realizes hw hsrc .xor false (fun _ _ _ _ => rfl) (fun _ => rfl) rfl
  | move hw => exact move_realizes hw
  | moveWide hop hw =>
    obtain rfl | rfl | rfl := hop
    · exact moveZero_realizes hw
    · exact moveNot_realizes hw
    · exact moveKeep_realizes hw
  | address hw => exact addressOf_realizes hw
  | branch => exact branch_realizes
  | branchCond => exact branchCond_realizes
  | ret => exact ret_realizes
  | nop => exact nop_realizes
  | word hop => obtain rfl | rfl := hop <;> cases hacc
  | narrow hop => obtain rfl | rfl | rfl | rfl := hop <;> cases hacc
  | pair hop => obtain rfl | rfl := hop <;> cases hacc

/-- **The code of an instruction** shows its effect, in sound memory.

**Proof sketch.** An instruction with an access performs it, and in sound memory that shows its
effect; any other does not depend on memory. -/
theorem instruction_realizes {inst : Instruction} (h : Regular inst) (pc : Word) (mem : Memory) :
    Realizes (instruction pc (some mem) inst) pc inst
      fun s => mem.Sound ∧ mem.Alike s.memory := by
  cases hacc : inst.access? with
  | some access =>
    obtain ⟨write, m, n⟩ := access
    exact (instruction_performs h hacc pc).realizes hacc mem
  | none => exact (instruction_realizes_of_pure h hacc pc (some mem)).mono fun _ _ => trivial

end Lower

end Dynarec
