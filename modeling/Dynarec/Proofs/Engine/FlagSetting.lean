import Dynarec.Proofs.Engine.Convention

/-!
# Instructions that set the flags

Sums, differences and bitwise products with flags, compares and conditional compares are one kind of
instruction: an operation on a register and an operand, whose flags are set, whose result may be
kept in a register, and which may depend on a condition. Their code does to the cells what this
says, and nothing to guest memory, from every host state.

## Main definitions

* `Dynarec.Guest.Arith` — the operations, with their results and flags.
* `Dynarec.Guest.FlagSetter` — an instruction of this kind, and what it does to the guest.

## Main results

* `Dynarec.Guest.State.step_flagSetter` — the step of an instruction that sets the flags.
* `Dynarec.Engine.Trial.emitted_sets_flags` — the code of an instruction that sets the flags.
-/

set_option autoImplicit false

namespace Dynarec

/-! ## Operations -/

namespace Guest

/-- The operations whose flags are set. -/
inductive Arith where
  | add | sub | and
  deriving DecidableEq, Repr

namespace Arith

variable {w : Nat}

/-- The result of an operation. -/
def result (x y : BitVec w) : Arith → BitVec w
  | add => x + y
  | sub => x - y
  | and => x &&& y

/-- Whether an operation carries: the unsigned sum does not fit, the difference needs no borrow. -/
def carries (x y : BitVec w) : Arith → Bool
  | add => x.uaddOverflow y
  | sub => !x.usubOverflow y
  | and => false

/-- Whether the signed result of an operation does not fit. -/
def overflows (x y : BitVec w) : Arith → Bool
  | add => x.saddOverflow y
  | sub => x.ssubOverflow y
  | and => false

/-- The flags of an operation. -/
def flags (x y : BitVec w) (op : Arith) : Flags where
  negative := (op.result x y).msb
  zero := op.result x y == 0
  carry := op.carries x y
  overflow := op.overflows x y

/-- Sums and differences of the guest, result and flags. -/
theorem addOrSub_eq (hw : w = 32 ∨ w = 64) (minus : Bool) (x y : BitVec w) :
    addOrSub minus x y =
      ((if minus then sub else add).result x y, (if minus then sub else add).flags x y) := by
  cases minus with
  | false => exact Prod.ext (Lower.fst_addOrSub_false x y) (Lower.guest_ofAdd hw x y).symm
  | true => exact Prod.ext (Lower.fst_addOrSub_true x y) (Lower.guest_ofSub hw x y).symm

end Arith

/-! ## Instructions -/

/-- An instruction that sets the flags. -/
structure FlagSetter where
  op : Arith
  /-- The width that the operation takes place at. -/
  width : Int
  rn : Register
  src : Operand
  /-- The register that takes the result; compares have none. -/
  rd : Option Register := none
  /-- The condition of a conditional compare, and the flags it sets where that does not hold. -/
  guard : Option (Condition × Word) := none

namespace FlagSetter

/-- What is in the cell of the flags afterwards. -/
def nzcv (f : FlagSetter) (x y : BitVec (bits f.width)) (before : Word) : Word :=
  match f.guard with
  | none => (f.op.flags x y).toWord
  | some (cond, literal) =>
    if cond.holds (.ofWord before) then (f.op.flags x y).toWord else literal <<< Flags.shift

/-- The state `t` is `s` after the instruction: the flags are set, the cell of the result takes it
with zeros above, and the other cells and memory are as they were. -/
def Performs (f : FlagSetter) (s t : State) : Prop :=
  ∃ v y, s.read f.rn = some v ∧ s.source (bits f.width) f.src = some y ∧ t.memory = s.memory ∧
    ∀ c, t.registers.get c =
      if c = .nzcv then f.nzcv (v.setWidth (bits f.width)) y s.registers.nzcv
      else if f.rd.bind Register.cell? = some c then
        (f.op.result (v.setWidth (bits f.width)) y).setWidth 64
      else s.registers.get c

end FlagSetter

/-- How an instruction sets the flags, if it does. -/
def Instruction.flagSetter? (inst : Instruction) : Option FlagSetter :=
  match inst.op, inst.operands with
  | .adds, [.reg rd, .reg rn, src] =>
    some { op := .add, width := rd.width, rn := rn, src := src, rd := some rd }
  | .subs, [.reg rd, .reg rn, src] =>
    some { op := .sub, width := rd.width, rn := rn, src := src, rd := some rd }
  | .ands, [.reg rd, .reg rn, src] =>
    some { op := .and, width := rd.width, rn := rn, src := src, rd := some rd }
  | .cmp, [.reg rn, src] => some { op := .sub, width := rn.width, rn := rn, src := src }
  | .cmn, [.reg rn, src] => some { op := .add, width := rn.width, rn := rn, src := src }
  | .ccmp, [.reg rn, src, .imm nzcv, .cond cond] =>
    some { op := .sub, width := rn.width, rn := rn, src := src, guard := some (cond, nzcv.value) }
  | .ccmn, [.reg rn, src, .imm nzcv, .cond cond] =>
    some { op := .add, width := rn.width, rn := rn, src := src, guard := some (cond, nzcv.value) }
  | _, _ => none

/-- The operations of instructions that set the flags. -/
def flagOps : List Op := [.cmp, .cmn, .adds, .subs, .ands, .ccmp, .ccmn]

/-- Instructions that set the flags access no memory. -/
theorem access?_of_mem_flagOps {inst : Instruction} (hop : inst.op ∈ flagOps) :
    inst.access? = none := by
  unfold Instruction.access?
  split
  case h_9 => rfl
  all_goals
    rename_i hinst _
    rw [hinst] at hop
    simp [flagOps] at hop

/-! ## Steps -/

namespace State

variable {s t : State}

/-- Setting the flags leaves memory alone. -/
@[simp] theorem memory_setFlags (s : State) (f : Flags) : (s.setFlags f).memory = s.memory := by
  rw [setFlags]

/-- Of the cells, setting the flags changes the one for the flags only. -/
theorem get_setFlags (s : State) (f : Flags) (c : Cell) :
    (s.setFlags f).registers.get c = if c = .nzcv then f.toWord else s.registers.get c := by
  cases c <;> simp [setFlags, Registers.get]

/-- Writing a result and setting its flags. -/
theorem performs_of_write (op : Arith) {rd rn : Register} {src : Operand} {v : Word}
    {y : BitVec (bits rd.width)} (hv : s.read rn = some v)
    (hy : s.source (bits rd.width) src = some y)
    (hwrite : s.write rd ((op.result (v.setWidth (bits rd.width)) y).setWidth 64) = some t) :
    FlagSetter.Performs { op := op, width := rd.width, rn := rn, src := src, rd := some rd } s
      (t.setFlags (op.flags (v.setWidth (bits rd.width)) y)) := by
  rw [eq_put_of_write hwrite]
  refine ⟨v, y, hv, hy, by rw [memory_setFlags, memory_put], fun c => ?_⟩
  rw [get_setFlags, get_put]
  rfl

/-- **Sums and differences that set the flags** write their result and the flags of the operation
on the unbounded sums. -/
theorem sum_performs (sub : Bool) {rd rn : Register} {src : Operand} {effect : Effect}
    (h : s.sum rd rn src sub true = some effect) :
    ∃ t, effect = .next t ∧ FlagSetter.Performs
      { op := if sub then .sub else .add, width := rd.width, rn := rn, src := src, rd := some rd }
      s t := by
  simp only [sum, Option.bind_eq_bind, Option.bind_eq_some_iff] at h
  obtain ⟨v, hv, y, hy, t, ht, h⟩ := h
  rw [Arith.addOrSub_eq (bits_cases rd.width)] at ht h
  cases h
  exact ⟨_, rfl, performs_of_write _ hv hy ht⟩

/-- A conjunction that sets the flags writes its result and the flags of a result without carry
or overflow. -/
theorem logical_performs {rd rn : Register} {src : Operand} {effect : Effect}
    (h : s.logical rd rn src .and true = some effect) :
    ∃ t, effect = .next t ∧ FlagSetter.Performs
      { op := .and, width := rd.width, rn := rn, src := src, rd := some rd } s t := by
  simp only [logical, Option.bind_eq_bind, Option.bind_eq_some_iff] at h
  obtain ⟨v, hv, y, hy, t, ht, h⟩ := h
  cases h
  exact ⟨_, rfl, performs_of_write .and hv hy ht⟩

/-- The flags of a compare are those of its operation. -/
theorem compareFlags_eq {rn : Register} {src : Operand} {sub : Bool} {f : Flags}
    (h : s.compareFlags rn src sub = some f) :
    ∃ v y, s.read rn = some v ∧ s.source (bits rn.width) src = some y ∧
      f = (if sub then Arith.sub else .add).flags (v.setWidth (bits rn.width)) y := by
  simp only [compareFlags, Option.bind_eq_bind, Option.bind_eq_some_iff] at h
  obtain ⟨v, hv, y, hy, h⟩ := h
  rw [Arith.addOrSub_eq (bits_cases rn.width)] at h
  cases h
  exact ⟨v, y, hv, hy, rfl⟩

/-- Comparisons set the flags as the same sum or difference would, and write no register. -/
theorem compare_performs (sub : Bool) {rn : Register} {src : Operand} {effect : Effect}
    (h : (s.compareFlags rn src sub).map (fun f => Effect.next (s.setFlags f)) = some effect) :
    ∃ t, effect = .next t ∧ FlagSetter.Performs
      { op := if sub then .sub else .add, width := rn.width, rn := rn, src := src } s t := by
  obtain ⟨f, hf, rfl⟩ := Option.map_eq_some_iff.1 h
  obtain ⟨v, y, hv, hy, rfl⟩ := compareFlags_eq hf
  refine ⟨_, rfl, v, y, hv, hy, memory_setFlags s _, fun c => ?_⟩
  rw [get_setFlags]
  simp only [FlagSetter.nzcv, Option.bind_none, reduceCtorEq, if_false]

/-- A nibble of flags stands in bits 28 to 31. -/
theorem toWord_ofNibble {v : Word} (h : v ≤ 0xF) :
    (Flags.ofNibble (v.setWidth 4)).toWord = v <<< Flags.shift := by
  have hv : v.toNat ≤ 15 := BitVec.le_def.1 h
  have hnarrow : (v.setWidth 4).setWidth 64 = v := by
    refine BitVec.eq_of_toNat_eq ?_
    simp only [BitVec.toNat_setWidth]
    omega
  rw [Flags.toWord, Lower.nibble_ofNibble, hnarrow]

/-- **Conditional comparisons** set the flags of the comparison where the condition holds, and
otherwise the four flags that the instruction names. Both are read as the top nibble of the cell
(`toWord_ofNibble`). -/
theorem condCompare_performs (sub : Bool) {rn : Register} {src : Operand} {nzcv : Word}
    {cond : Condition} {effect : Effect} (hnzcv : nzcv ≤ 0xF)
    (h : s.condCompare rn src nzcv cond sub = some effect) :
    ∃ t, effect = .next t ∧ FlagSetter.Performs
      { op := if sub then .sub else .add, width := rn.width, rn := rn, src := src,
        guard := some (cond, nzcv) } s t := by
  simp only [condCompare, Option.bind_eq_bind, Option.bind_eq_some_iff] at h
  obtain ⟨f, hf, h⟩ := h
  cases h
  obtain ⟨v, y, hv, hy, rfl⟩ := compareFlags_eq hf
  refine ⟨_, rfl, v, y, hv, hy, memory_setFlags s _, fun c => ?_⟩
  rw [get_setFlags, apply_ite Flags.toWord, toWord_ofNibble hnzcv]
  simp only [FlagSetter.nzcv, Option.bind_none, reduceCtorEq, if_false]
  rfl

/-- **The step of an instruction that sets the flags.**

**Proof sketch.** One case for each shape of instruction. For the operations that set the
flags, the step is the one said (`sum_performs`, `compare_performs`, `condCompare_performs`,
`logical_performs`); any other operation is none of them. -/
theorem step_flagSetter {inst : Instruction} (h : Regular inst) (hop : inst.op ∈ flagOps) :
    ∃ f, inst.flagSetter? = some f ∧ ∀ s pc effect, State.step s pc inst = some effect →
      ∃ t, effect = .next t ∧ f.Performs s t := by
  cases h with
  | sum hsum =>
    obtain rfl | rfl | rfl | rfl := hsum
    · simp [flagOps] at hop
    · exact ⟨_, rfl, fun _ _ _ hstep => sum_performs false hstep⟩
    · simp [flagOps] at hop
    · exact ⟨_, rfl, fun _ _ _ hstep => sum_performs true hstep⟩
  | compare hcompare =>
    obtain rfl | rfl := hcompare
    · exact ⟨_, rfl, fun _ _ _ hstep => compare_performs true hstep⟩
    · exact ⟨_, rfl, fun _ _ _ hstep => compare_performs false hstep⟩
  | condCompare hcompare _ _ hnzcv =>
    obtain rfl | rfl := hcompare
    · exact ⟨_, rfl, fun _ _ _ hstep => condCompare_performs true hnzcv hstep⟩
    · exact ⟨_, rfl, fun _ _ _ hstep => condCompare_performs false hnzcv hstep⟩
  | logical hlogical =>
    obtain rfl | rfl | rfl | rfl := hlogical
    · simp [flagOps] at hop
    · exact ⟨_, rfl, fun _ _ _ hstep => logical_performs hstep⟩
    · simp [flagOps] at hop
    · simp [flagOps] at hop
  | moveWide hwide => obtain rfl | rfl | rfl := hwide <;> simp [flagOps] at hop
  | word haccess | pair haccess => obtain rfl | rfl := haccess <;> simp [flagOps] at hop
  | narrow haccess => obtain rfl | rfl | rfl | rfl := haccess <;> simp [flagOps] at hop
  | move | address | branch | branchCond | ret | nop => simp [flagOps] at hop

end State

end Guest

/-! ## Code -/

namespace Engine.Trial

/-- **The code of an instruction that sets the flags.** Take an instruction of this kind that
decoding gives, with mapped registers only. Its code can be emitted, wherever it stands, whatever
memory there is, and with any host registers in use that leave seven free; and it can be assembled.
Run from any host state, it goes on behind its end, and there the cells are as the instruction says
and memory is as it was.

**Proof sketch.** Instructions that set the flags access no memory, so they are lowered as
they are meant in any memory and their code can be had and run (`exists_code_shows`). What the
code shows is the effect of the step, which is the one of the flag setter
(`Guest.State.step_flagSetter`). -/
theorem emitted_sets_flags {word : Opcode} {inst : Guest.Instruction}
    (hword : Guest.decode word = some inst) (hop : inst.op ∈ Guest.flagOps)
    (hmapped : ∀ r ∈ inst.named, r.Mapped) (pc : Word) (memory : Option Memory)
    (reserved : List Host.Reg) :
    let t : Trial := { inst := inst, pc := pc, memory := memory, reserved := reserved }
    7 ≤ t.initial.scratch.free →
      t.emitted.1 = .ok () ∧
        ∃ f code, inst.flagSetter? = some f ∧ t.emitted.2.code.assemble = .ok code ∧
          ∀ s : Host.State, ∃ u, code.program.run s = .ended u ∧ f.Performs s.guest u.guest := by
  intro t hfree
  have hinst : Guest.Regular inst := Guest.regular_of_decode hword
  obtain ⟨hok, code, hcode, hruns⟩ := exists_code_shows (t := t)
    (Lower.instruction_realizes_of_pure hinst (Guest.access?_of_mem_flagOps hop) pc memory)
    hmapped hfree
  obtain ⟨f, hf, hsteps⟩ := Guest.State.step_flagSetter hinst hop
  refine ⟨hok, f, code, hf, hcode, fun s => ?_⟩
  obtain ⟨effect, walked, hstep, hrun, hshows⟩ := hruns s trivial
  obtain ⟨g, rfl, hperforms⟩ := hsteps s.guest pc effect hstep
  cases hshows with
  | @next u hheld => exact ⟨u, hrun, hperforms⟩

/-- A conditional compare of both general registers, without memory. -/
theorem emitted_sets_flags_ccmp :
    let inst : Guest.Instruction :=
      { op := .ccmp, operands := [.reg (.x 0), .reg (.x 1), .imm ⟨4, 0⟩, .cond .ne] }
    let t : Trial := { inst := inst, pc := 0, memory := none }
    Guest.decode 0xfa411004 = some inst ∧ t.emitted.1 = .ok () ∧
      ∃ f code, inst.flagSetter? = some f ∧ t.emitted.2.code.assemble = .ok code ∧
        ∀ s : Host.State, ∃ u, code.program.run s = .ended u ∧ f.Performs s.guest u.guest := by
  intro inst t
  have hword : Guest.decode 0xfa411004 = some inst := by decide
  exact ⟨hword, emitted_sets_flags hword (by decide) (by decide) 0 none [] (by decide)⟩

end Engine.Trial

end Dynarec
