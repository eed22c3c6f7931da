import Dynarec.Proofs.Engine.Transfer
import Dynarec.Proofs.Guest.Decode

/-!
# Instructions that set a register

Sums, differences and bitwise operations without flags, moves and addresses are one kind of
instruction: a formula is worked out at the width of a register, and its value is put into that
register, with zeros above. Their code does this to the cells and nothing else, from every host
state; the code of an instruction that does nothing does nothing.

## Main definitions

* `Dynarec.Guest.Formula` — what is worked out, and its value.
* `Dynarec.Guest.Assignment` — an instruction of this kind, and what it does to the guest.

## Main results

* `Dynarec.Guest.State.step_assignment` — the step of an instruction that sets a register.
* `Dynarec.Engine.Trial.emitted_assigns` — the code of an instruction that sets a register.
-/

set_option autoImplicit false

namespace Dynarec

namespace Guest

/-! ## Formulas -/

/-- What an instruction works out for a register. -/
inductive Formula where
  /-- The sum of a register and an operand. -/
  | sum (rn : Register) (src : Operand)
  /-- A register less an operand. -/
  | difference (rn : Register) (src : Operand)
  /-- A register and an operand, bit by bit. -/
  | bitwise (op : Bitwise) (rn : Register) (src : Operand)
  /-- Another register. -/
  | copy (rm : Register)
  /-- A constant. -/
  | constant (i : Immediate)
  /-- The complement of a constant. -/
  | complement (i : Immediate)
  /-- The register itself with sixteen of its bits replaced. -/
  | insert (i : Immediate)
  /-- The address at a distance from the instruction. -/
  | address (distance : Int)

/-- The value of a formula for the register `rd`, at the width of that register. -/
def Formula.Gives (pc : Word) (rd : Register) (s : State) (r : BitVec (bits rd.width)) :
    Formula → Prop
  | sum rn src => ∃ x y, s.read rn = some x ∧ s.source _ src = some y ∧ r = x.setWidth _ + y
  | difference rn src => ∃ x y, s.read rn = some x ∧ s.source _ src = some y ∧ r = x.setWidth _ - y
  | bitwise op rn src =>
    ∃ x y, s.read rn = some x ∧ s.source _ src = some y ∧ r = op.apply (x.setWidth _) y
  | copy rm => ∃ x, s.read rm = some x ∧ r = x.setWidth _
  | constant i => r = i.shifted.setWidth _
  | complement i => r = ~~~ i.shifted.setWidth _
  | insert i => ∃ x, s.read rd = some x ∧ ∀ k < bits rd.width, r.getLsbD k =
      if i.shift ≤ k ∧ k < i.shift + 16 then i.value.getLsbD (k - i.shift) else x.getLsbD k
  | address distance => r = (pc + BitVec.ofInt 64 distance).setWidth _

/-! ## Assignments -/

/-- An instruction that sets a register, or does nothing. -/
inductive Assignment where
  | set (rd : Register) (formula : Formula)
  | nothing

/-- The state `t` is `s` after the instruction: the cell of the register, if it has one, holds the
value with zeros above, and the other cells and memory are as they were. -/
def Assignment.Performs (pc : Word) (s t : State) : Assignment → Prop
  | set rd formula => ∃ r, formula.Gives pc rd s r ∧ t.memory = s.memory ∧
      ∀ c, t.registers.get c = if rd.cell? = some c then r.setWidth 64 else s.registers.get c
  | nothing => t = s

/-- How an instruction sets a register, if that is what it does. -/
def Instruction.assignment? (inst : Instruction) : Option Assignment :=
  match inst.op, inst.operands with
  | .add, [.reg rd, .reg rn, src] => some (.set rd (.sum rn src))
  | .sub, [.reg rd, .reg rn, src] => some (.set rd (.difference rn src))
  | .and, [.reg rd, .reg rn, src] => some (.set rd (.bitwise .and rn src))
  | .orr, [.reg rd, .reg rn, src] => some (.set rd (.bitwise .or rn src))
  | .eor, [.reg rd, .reg rn, src] => some (.set rd (.bitwise .xor rn src))
  | .mov, [.reg rd, .reg rm] => some (.set rd (.copy rm))
  | .movz, [.reg rd, .imm i] => some (.set rd (.constant i))
  | .movn, [.reg rd, .imm i] => some (.set rd (.complement i))
  | .movk, [.reg rd, .imm i] => some (.set rd (.insert i))
  | .adr, [.reg rd, .label distance] => some (.set rd (.address distance))
  | .nop, _ => some .nothing
  | _, _ => none

/-- The operations of instructions that set a register and no flags, or do nothing. -/
def assignmentOps : List Op :=
  [.add, .sub, .and, .orr, .eor, .mov, .movz, .movn, .movk, .adr, .nop]

/-- No register has more than 64 bits. -/
theorem bits_le (width : Int) : bits width ≤ 64 := by
  obtain h | h := bits_cases width <;> omega

/-- The immediate of a wide move has sixteen bits.

**Proof sketch.** Only words of one class are read as wide moves (`Form.form?_of_read`), and
that class takes the immediate from a field of sixteen bits. -/
theorem value_lt_of_decode {word : Opcode} {op : Op} {rd : Register} {i : Immediate}
    (h : decode word = some { op := op, operands := [.reg rd, .imm i] })
    (hop : op = .movz ∨ op = .movn ∨ op = .movk) : i.value.toNat < 0x10000 := by
  obtain ⟨form, -, hread⟩ := Option.bind_eq_some_iff.1 h
  obtain rfl : form = .moveWide := by
    have hform := Form.form?_of_read hread
    obtain rfl | rfl | rfl := hop <;> exact (Option.some.inj hform).symm
  simp only [Form.read, readMoveWide, Option.ite_none_left_eq_some] at hread
  obtain ⟨-, hread⟩ := hread
  have hfield : field word 5 16 < 0x10000 := field_lt word 5 16
  have hvalue : i.value = BitVec.ofNat 64 (field word 5 16) := by
    split at hread <;> cases hread <;> rfl
  rw [hvalue, BitVec.toNat_ofNat]
  omega

/-- Taking sixteen bits out of a word and putting others in.

**Proof sketch.** Bit by bit. Inside the sixteen bits the mask is clear and the immediate
decides. Below them the immediate is shifted away, above them it has no bits, and the mask is set
in both cases. -/
theorem getLsbD_replaced {i : Immediate} (h : i.value.toNat < 0x10000) (x : Word) {k : Nat}
    (hk : k < 64) :
    ((x &&& ~~~((0xFFFF : Word) <<< i.shift)) ||| i.shifted).getLsbD k =
      if i.shift ≤ k ∧ k < i.shift + 16 then i.value.getLsbD (k - i.shift) else x.getLsbD k := by
  have hmask : ∀ j, (0xFFFF : Word).getLsbD j = decide (j < 16) := by
    intro j
    have hones : (0xFFFF : Word) = (BitVec.allOnes 16).setWidth 64 := by decide
    rw [hones, BitVec.getLsbD_setWidth, BitVec.getLsbD_allOnes]
    by_cases hj : j < 16
    · simp [hj, show j < 64 by omega]
    · simp [hj]
  have hhigh : ∀ j, 16 ≤ j → i.value.getLsbD j = false := by
    intro j hj
    have hpow : 2 ^ 16 ≤ 2 ^ j := Nat.pow_le_pow_right (by decide) hj
    exact Nat.testBit_lt_two_pow (Nat.lt_of_lt_of_le h hpow)
  simp only [Immediate.shifted, BitVec.getLsbD_or, BitVec.getLsbD_and, BitVec.getLsbD_not,
    BitVec.getLsbD_shiftLeft, hmask, hk, decide_true, Bool.true_and]
  by_cases hlow : i.shift ≤ k
  · by_cases hin : k - i.shift < 16
    · rw [if_pos ⟨hlow, by omega⟩]
      simp [hin, Nat.not_lt.2 hlow]
    · rw [if_neg (by omega), hhigh _ (by omega)]
      simp [hin]
  · rw [if_neg (by omega)]
    simp [Nat.lt_of_not_le hlow]

/-! ## Steps -/

namespace State

variable {s t : State} {pc : Word} {rd rn : Register} {src : Operand} {effect : Effect}

/-- Writing the value of a formula performs an assignment. -/
theorem assigns_of_write {formula : Formula} {r : BitVec (bits rd.width)}
    (hgives : formula.Gives pc rd s r) (hwrite : s.write rd (r.setWidth 64) = some t) :
    (Assignment.set rd formula).Performs pc s t := by
  rw [eq_put_of_write hwrite]
  exact ⟨r, hgives, memory_put s rd _, get_put s rd _⟩

/-- Sums and differences that set no flags assign their formula. -/
theorem sum_assigns (sub : Bool) (h : s.sum rd rn src sub false = some effect) :
    ∃ t, effect = .next t ∧
      (Assignment.set rd (if sub then .difference rn src else .sum rn src)).Performs pc s t := by
  simp only [sum, Option.bind_eq_bind, Option.bind_eq_some_iff] at h
  obtain ⟨x, hx, y, hy, t, ht, h⟩ := h
  cases h
  cases sub with
  | false =>
    rw [Lower.fst_addOrSub_false] at ht
    exact ⟨t, rfl, assigns_of_write ⟨x, y, hx, hy, rfl⟩ ht⟩
  | true =>
    rw [Lower.fst_addOrSub_true] at ht
    exact ⟨t, rfl, assigns_of_write ⟨x, y, hx, hy, rfl⟩ ht⟩

/-- Logical operations that set no flags assign their formula. -/
theorem logical_assigns {op : Bitwise} (h : s.logical rd rn src op false = some effect) :
    ∃ t, effect = .next t ∧ (Assignment.set rd (.bitwise op rn src)).Performs pc s t := by
  simp only [logical, Option.bind_eq_bind, Option.bind_eq_some_iff] at h
  obtain ⟨x, hx, y, hy, t, ht, h⟩ := h
  cases h
  exact ⟨t, rfl, assigns_of_write ⟨x, y, hx, hy, rfl⟩ ht⟩

/-- Moves assign a formula that gives the value moved. -/
theorem move_assigns {formula : Formula} {v : Word}
    (hgives : formula.Gives pc rd s (v.setWidth _)) (h : s.move rd v = some effect) :
    ∃ t, effect = .next t ∧ (Assignment.set rd formula).Performs pc s t := by
  obtain ⟨t, ht, rfl⟩ := Option.map_eq_some_iff.1 h
  exact ⟨t, rfl, assigns_of_write hgives ht⟩

/-- The value of a constant's complement. -/
theorem gives_complement (i : Immediate) :
    (Formula.complement i).Gives pc rd s ((~~~ i.shifted).setWidth _) := by
  exact BitVec.setWidth_not (bits_le rd.width)

/-- The value of a register with a field replaced. -/
theorem gives_insert {i : Immediate} (hvalue : i.value.toNat < 0x10000) {x : Word}
    (hx : s.read rd = some x) : (Formula.insert i).Gives pc rd s
      (((x &&& ~~~((0xFFFF : Word) <<< i.shift)) ||| i.shifted).setWidth _) := by
  have hle := bits_le rd.width
  refine ⟨x, hx, fun k hk => ?_⟩
  rw [BitVec.getLsbD_setWidth, decide_eq_true hk, Bool.true_and,
    getLsbD_replaced hvalue x (by omega)]

/-- **The step of an instruction that sets a register.**

**Proof sketch.** One case for each shape of instruction that decoding gives. Those that set
the flags, access memory or leave are none of these operations. The immediate of a wide move is
known to have sixteen bits because the word was decoded. -/
theorem step_assignment {word : Opcode} {inst : Instruction} (hword : decode word = some inst)
    (hop : inst.op ∈ assignmentOps) :
    ∃ a, inst.assignment? = some a ∧ ∀ s pc effect, State.step s pc inst = some effect →
      ∃ t, effect = .next t ∧ a.Performs pc s t := by
  cases regular_of_decode hword with
  | sum hsum =>
    obtain rfl | rfl | rfl | rfl := hsum
    · exact ⟨_, rfl, fun _ _ _ hstep => sum_assigns false hstep⟩
    · simp [assignmentOps] at hop
    · exact ⟨_, rfl, fun _ _ _ hstep => sum_assigns true hstep⟩
    · simp [assignmentOps] at hop
  | logical hlogical =>
    obtain rfl | rfl | rfl | rfl := hlogical
    · exact ⟨_, rfl, fun _ _ _ hstep => logical_assigns hstep⟩
    · simp [assignmentOps] at hop
    · exact ⟨_, rfl, fun _ _ _ hstep => logical_assigns hstep⟩
    · exact ⟨_, rfl, fun _ _ _ hstep => logical_assigns hstep⟩
  | move =>
    refine ⟨_, rfl, fun s pc effect hstep => ?_⟩
    obtain ⟨x, hx, hstep⟩ := Option.bind_eq_some_iff.1 hstep
    exact move_assigns ⟨x, hx, rfl⟩ hstep
  | @moveWide op rd i hwide =>
    have hvalue := value_lt_of_decode hword hwide
    obtain rfl | rfl | rfl := hwide
    · exact ⟨_, rfl, fun _ _ _ hstep => move_assigns rfl hstep⟩
    · exact ⟨_, rfl, fun _ _ _ hstep => move_assigns (gives_complement i) hstep⟩
    · refine ⟨_, rfl, fun s pc effect hstep => ?_⟩
      obtain ⟨x, hx, hstep⟩ := Option.bind_eq_some_iff.1 hstep
      exact move_assigns (gives_insert hvalue hx) hstep
  | address => exact ⟨_, rfl, fun _ _ _ hstep => move_assigns rfl hstep⟩
  | nop =>
    refine ⟨.nothing, rfl, fun s pc effect hstep => ?_⟩
    cases hstep
    exact ⟨s, rfl, rfl⟩
  | compare hother | condCompare hother | word hother | pair hother =>
    obtain rfl | rfl := hother <;> simp [assignmentOps] at hop
  | narrow hother => obtain rfl | rfl | rfl | rfl := hother <;> simp [assignmentOps] at hop
  | branch | branchCond | ret => simp [assignmentOps] at hop

end State

end Guest

/-! ## Code -/

namespace Engine.Trial

/-- **The code of an instruction that sets a register.** Take an instruction of this kind that
decoding gives, with mapped registers only. Its code can be emitted, wherever it stands, whatever
memory there is, and with any host registers in use that leave seven free; and it can be assembled.
Run from any host state, it goes on behind its end, and there the register holds the value of the
formula, and the other cells and memory are as they were.

**Proof sketch.** Instructions that access no memory are lowered as they are meant in any
memory, and their code can be had and run (`exists_code_shows`). What the code shows is the
effect of the step, which sets the register by its formula (`Guest.State.step_assignment`). -/
theorem emitted_assigns {word : Opcode} {inst : Guest.Instruction}
    (hword : Guest.decode word = some inst) (hop : inst.op ∈ Guest.assignmentOps)
    (hmapped : ∀ r ∈ inst.named, r.Mapped) (pc : Word) (memory : Option Memory)
    (reserved : List Host.Reg) :
    let t : Trial := { inst := inst, pc := pc, memory := memory, reserved := reserved }
    7 ≤ t.initial.scratch.free →
      t.emitted.1 = .ok () ∧
        ∃ a code, inst.assignment? = some a ∧ t.emitted.2.code.assemble = .ok code ∧
          ∀ s : Host.State, ∃ u, code.program.run s = .ended u ∧
            a.Performs pc s.guest u.guest := by
  intro t hfree
  have hpure : inst.access? = none := by
    have hothers : ∀ op ∈ Guest.assignmentOps, op ∉ Guest.transferOps := by decide
    exact Guest.access?_of_not_mem (hothers inst.op hop)
  obtain ⟨hok, code, hcode, hruns⟩ := exists_code_shows (t := t)
    (Lower.instruction_realizes_of_pure (Guest.regular_of_decode hword) hpure pc memory)
    hmapped hfree
  obtain ⟨a, ha, hsteps⟩ := Guest.State.step_assignment hword hop
  refine ⟨hok, a, code, ha, hcode, fun s => ?_⟩
  obtain ⟨effect, walked, hstep, hrun, hshows⟩ := hruns s trivial
  obtain ⟨g, rfl, hperforms⟩ := hsteps s.guest pc effect hstep
  cases hshows with
  | @next u hheld => exact ⟨u, hrun, hperforms⟩

/-- Subtracting a register that is shifted with its sign, at half width, with the destination among
the operands. -/
theorem emitted_assigns_shifted :
    let inst : Guest.Instruction :=
      { op := .sub, operands := [.reg (.w 0), .reg (.w 1), .shifted (.w 0) .asr 31] }
    let t : Trial := { inst := inst, pc := 0, memory := none }
    Guest.decode 0x4b807c20 = some inst ∧ t.emitted.1 = .ok () ∧
      ∃ a code, inst.assignment? = some a ∧ t.emitted.2.code.assemble = .ok code ∧
        ∀ s : Host.State, ∃ u, code.program.run s = .ended u ∧
          a.Performs 0 s.guest u.guest := by
  intro inst t
  have hword : Guest.decode 0x4b807c20 = some inst := by decide
  exact ⟨hword, emitted_assigns hword (by decide) (by decide) 0 none [] (by decide)⟩

end Engine.Trial

end Dynarec
