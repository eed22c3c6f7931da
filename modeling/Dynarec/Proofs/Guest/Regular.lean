import Dynarec.Guest.Step
import Dynarec.Host.Encode
import Mathlib.Tactic.Common

/-!
# Regular instructions

Decoding gives instructions of a few shapes only, with operands that agree in their widths and
immediates that are small. Whatever is true of the regular instructions is true of every word that
is understood.

## Main definitions

* `Dynarec.Guest.Register.Mapped` — registers that have a value here.
* `Dynarec.Guest.Regular` — the shapes of decoded instructions.
* `Dynarec.Guest.State.put` — writing a register, as a change of its cell.
* `Dynarec.Guest.Instruction.named` — the registers that an instruction uses.

## Main results

* `Dynarec.Guest.regular_of_decode` — every word that is understood is a regular instruction.
* `Dynarec.Guest.State.step_eq_none_iff` — a regular instruction has an effect exactly when the
  registers it uses are mapped.
-/

set_option autoImplicit false

namespace Dynarec.Guest

/-! ## Mapped registers -/

/-- The registers that have a value here: the first two, and the zero register. -/
def Register.Mapped (r : Register) : Prop :=
  r.number = 0 ∨ r.number = 1 ∨ (r.number = zeroNumber ∧ r.sp = false)

/-- Whether a register is mapped can be decided: it is a matter of its number. -/
instance (r : Register) : Decidable r.Mapped :=
  inferInstanceAs (Decidable (_ ∨ _ ∨ _))

namespace Register

variable {r : Register}

/-- The zero register is mapped: it reads as zero, and what is written to it is dropped. -/
theorem mapped_of_isZero (h : r.isZero) : r.Mapped := by
  refine .inr (.inr ?_)
  simpa [isZero] using h

/-- A register other than the zero register has a cell exactly when it is mapped. So the ways in
which it can be read and written come down to whether it has one. -/
theorem mapped_iff_isSome_cell (h : r.isZero = false) :
    r.Mapped ↔ (Cell.ofRegister? r).isSome := by
  have hz : ¬ (r.number = zeroNumber ∧ r.sp = false) := by
    intro hz
    simp [isZero, hz] at h
  unfold Mapped Cell.ofRegister?
  split <;> simp_all

end Register

namespace State

variable {s : State} {r : Register}

/-- Reading a register gives nothing exactly if the register is not mapped, whatever the state. -/
theorem read_eq_none_iff : s.read r = none ↔ ¬ r.Mapped := by
  unfold read
  cases h : r.isZero with
  | true => simp [Register.mapped_of_isZero h]
  | false => simp [Register.mapped_iff_isSome_cell h]

/-- Writing a register gives nothing exactly if the register is not mapped, whatever the state
and the value. -/
theorem write_eq_none_iff {v : Word} : s.write r v = none ↔ ¬ r.Mapped := by
  unfold write
  cases h : r.isZero with
  | true => simp [Register.mapped_of_isZero h]
  | false => simp [Register.mapped_iff_isSome_cell h]

end State

/-! ## Cells -/

/-- The cell of a register; the zero register has none. -/
def Register.cell? (r : Register) : Option Cell :=
  if r.isZero then none else Cell.ofRegister? r

/-- No register has the cell of the program counter or that of the flags. Whatever an instruction
writes to its registers, these two stay as they are. -/
theorem Register.cell?_ne {r : Register} {c : Cell} (hpc : c = .pc ∨ c = .nzcv) :
    r.cell? ≠ some c := by
  unfold Register.cell? Cell.ofRegister?
  obtain rfl | rfl := hpc <;> split <;> [simp; split; simp; split] <;> simp

namespace State

variable {s t : State} {r : Register} {v : Word}

/-- The state with the cell of a register replaced, if it has one. -/
def put (s : State) (r : Register) (v : Word) : State :=
  match r.cell? with
  | some c => { s with registers := s.registers.set c v }
  | none => s

/-- A write that gives a state gives the one that `put` does. With `put`, which is total, one can
go on without asking again whether the register is mapped. -/
theorem eq_put_of_write (h : s.write r v = some t) : t = s.put r v := by
  unfold write at h
  split at h
  next hzero =>
    have hcell : r.cell? = none := if_pos hzero
    rw [put, hcell]
    exact (Option.some.inj h).symm
  next hzero =>
    obtain ⟨c, hc, rfl⟩ := Option.map_eq_some_iff.1 h
    have hcell : r.cell? = some c := (if_neg hzero).trans hc
    rw [put, hcell]

/-- Writing a register leaves memory as it is. -/
@[simp] theorem memory_put (s : State) (r : Register) (v : Word) :
    (s.put r v).memory = s.memory := by
  unfold put
  split <;> rfl

/-- The cells after a register has been written: its own cell, if it has one, has the new value,
and the others are as they were. -/
theorem get_put (s : State) (r : Register) (v : Word) (c : Cell) :
    (s.put r v).registers.get c = if r.cell? = some c then v else s.registers.get c := by
  unfold put
  split
  next d hd => simp [hd, eq_comm]
  next hnone => simp [hnone]

end State

/-! ## Shapes -/

/-- The number of bits that an operand width stands for is one of two: a width that is none of
the two counts as the lower one. -/
theorem bits_cases (width : Int) : bits width = 32 ∨ bits width = 64 := by
  unfold bits
  split
  · exact .inr rfl
  · exact .inl rfl

/-- The last operand of a sum or a compare at a width: a small immediate, or a register of the same
width shifted by less than it. -/
inductive Addend (width : Int) : Operand → Prop where
  | imm {i : Immediate} (h : i.shifted.toNat < 0x1000000) : Addend width (.imm i)
  | shifted {r : Register} {kind : ShiftKind} {amount : Nat} (hw : r.width = width)
      (ha : (amount : Int) < width) : Addend width (.shifted r kind amount)

/-- The last operand of a logical operation at a width: a mask, or a register of the same width
shifted by less than it. -/
inductive Mask (width : Int) : Operand → Prop where
  | imm {i : Immediate} : Mask width (.imm i)
  | shifted {r : Register} {kind : ShiftKind} {amount : Nat} (hw : r.width = width)
      (ha : (amount : Int) < width) : Mask width (.shifted r kind amount)

/-- The second operand of a conditional compare at a width: a small immediate or a register. -/
inductive Comparand : Operand → Prop where
  | imm {i : Immediate} (h : i.shifted.toNat < 0x1000000) : Comparand (.imm i)
  | reg {r : Register} : Comparand (.reg r)

/-- The shapes of the instructions that decoding gives. -/
inductive Regular : Instruction → Prop where
  | sum {op : Op} {rd rn : Register} {src : Operand}
      (hop : op = .add ∨ op = .adds ∨ op = .sub ∨ op = .subs) (hw : Host.isWidth rd.width)
      (hsrc : Addend rd.width src) : Regular { op := op, operands := [.reg rd, .reg rn, src] }
  | compare {op : Op} {rn : Register} {src : Operand} (hop : op = .cmp ∨ op = .cmn)
      (hw : Host.isWidth rn.width) (hsrc : Addend rn.width src) :
      Regular { op := op, operands := [.reg rn, src] }
  | condCompare {op : Op} {rn : Register} {src : Operand} {nzcv : Immediate} {c : Condition}
      (hop : op = .ccmp ∨ op = .ccmn) (hw : Host.isWidth rn.width) (hsrc : Comparand src)
      (hnzcv : nzcv.value ≤ 0xF) :
      Regular { op := op, operands := [.reg rn, src, .imm nzcv, .cond c] }
  | logical {op : Op} {rd rn : Register} {src : Operand}
      (hop : op = .and ∨ op = .ands ∨ op = .orr ∨ op = .eor) (hw : Host.isWidth rd.width)
      (hsrc : Mask rd.width src) : Regular { op := op, operands := [.reg rd, .reg rn, src] }
  | move {rd rm : Register} (hw : Host.isWidth rd.width) :
      Regular { op := .mov, operands := [.reg rd, .reg rm] }
  | moveWide {op : Op} {rd : Register} {i : Immediate}
      (hop : op = .movz ∨ op = .movn ∨ op = .movk) (hw : Host.isWidth rd.width) :
      Regular { op := op, operands := [.reg rd, .imm i] }
  | address {rd : Register} {offset : Int} (hw : Host.isWidth rd.width) :
      Regular { op := .adr, operands := [.reg rd, .label offset] }
  | word {op : Op} {rt : Register} {m : MemoryRef} (hop : op = .ldr ∨ op = .str)
      (hw : Host.isWidth rt.width) : Regular { op := op, operands := [.reg rt, .mem m] }
  | narrow {op : Op} {rt : Register} {m : MemoryRef}
      (hop : op = .ldrb ∨ op = .ldrh ∨ op = .strb ∨ op = .strh) (hw : rt.width = 32) :
      Regular { op := op, operands := [.reg rt, .mem m] }
  | pair {op : Op} {rt rt2 : Register} {m : MemoryRef} (hop : op = .ldp ∨ op = .stp)
      (hw : Host.isWidth rt.width) (hw2 : rt2.width = rt.width) :
      Regular { op := op, operands := [.reg rt, .reg rt2, .mem m] }
  | branch {offset : Int} : Regular { op := .b, operands := [.label offset] }
  | branchCond {c : Condition} {offset : Int} :
      Regular { op := .bcond, operands := [.cond c, .label offset] }
  | ret {operands : List Operand} : Regular { op := .ret, operands := operands }
  | nop : Regular { op := .nop }

/-! ## Decoding gives regular instructions -/

/-- A field of a word is below the power of two that its length gives. -/
theorem field_lt (w : Opcode) (lo len : Nat) : field w lo len < Nat.pow 2 len :=
  (w.extractLsb' lo len).isLt

/-- The width that the top bit of a word selects is one of the two operand widths. -/
theorem isWidth_widthOf (w : Opcode) : Host.isWidth (widthOf w) := by
  unfold widthOf
  split <;> rfl

/-- Sums and compares with an immediate are regular: the field has twelve bits, so even shifted by
twelve the immediate is small.

The flag-setting ones with the zero register as destination are compares, which accounts for the
two shapes.

**Proof sketch.** The operation has the shape of a sum, unless it sets flags for the zero
register, where it has that of a compare. -/
theorem regular_readAddSubImm (w : Opcode) : Regular (readAddSubImm w) := by
  have hvalue : field w 10 12 < 4096 := field_lt w 10 12
  have hsrc : ∀ width, Addend width (.imm
      { value := BitVec.ofNat 64 (field w 10 12)
        shift := if field w 22 1 = 1 then 12 else 0 }) := by
    intro width
    refine .imm ?_
    simp only [Immediate.shifted]
    split <;> simp <;> omega
  have hw := isWidth_widthOf w
  unfold readAddSubImm
  by_cases hflags : field w 29 1 = 0
  · rw [if_pos hflags]
    exact .sum (by split <;> simp) hw (hsrc _)
  · rw [if_neg hflags]
    by_cases hzero : field w 0 5 = zeroNumber
    · rw [if_pos hzero]
      exact .compare (by split <;> simp) hw (hsrc _)
    · rw [if_neg hzero]
      exact .sum (by split <;> simp) hw (hsrc _)

/-- A shift amount that is accepted is below the width: the field has six bits, and at the lower
width amounts of 32 and more are rejected. -/
theorem amount_lt_widthOf {w : Opcode} (h : ¬ (widthOf w = 32 ∧ 32 ≤ field w 10 6)) :
    (field w 10 6 : Int) < (widthOf w : Nat) := by
  have hlt : field w 10 6 < 64 := field_lt w 10 6
  unfold widthOf at h ⊢
  by_cases hwide : field w 31 1 = 1
  · rw [if_pos hwide]
    omega
  · rw [if_neg hwide] at h ⊢
    omega

/-- Sums and compares with a shifted register are regular: the register has the width of the
others, and the shift amount is below it.

**Proof sketch.** The words that are accepted have an amount below the width, so the second
operand is one that can be shifted. The shapes are those with an immediate. -/
theorem regular_readAddSubReg {w : Opcode} {inst : Instruction} (h : readAddSubReg w = some inst) :
    Regular inst := by
  have hw := isWidth_widthOf w
  unfold readAddSubReg at h
  simp only at h
  split at h
  · cases h
  · rename_i haccept
    have hsrc : ∀ width : Int, width = (widthOf w : Nat) → Addend width
        (.shifted (registerAt w 16 (widthOf w)) (.ofCode (field w 22 2)) (field w 10 6)) := by
      rintro _ rfl
      exact .shifted rfl (amount_lt_widthOf fun hle => haccept (.inr hle))
    cases h
    by_cases hflags : field w 29 1 = 0
    · rw [if_pos hflags]
      exact .sum (by split <;> simp) hw (hsrc _ rfl)
    · rw [if_neg hflags]
      by_cases hzero : field w 0 5 = zeroNumber
      · rw [if_pos hzero]
        exact .compare (by split <;> simp) hw (hsrc _ rfl)
      · rw [if_neg hzero]
        exact .sum (by split <;> simp) hw (hsrc _ rfl)

/-- The two-bit code of a logical operation stands for one of four operations. -/
theorem logicalOp_cases (code : Nat) : logicalOp code = .and ∨ logicalOp code = .ands ∨
    logicalOp code = .orr ∨ logicalOp code = .eor := by
  unfold logicalOp
  split <;> simp

/-- Logical operations with a mask are regular. Nothing is asked of the value of the mask. -/
theorem regular_readLogicalImm {w : Opcode} {inst : Instruction}
    (h : readLogicalImm w = some inst) : Regular inst := by
  unfold readLogicalImm at h
  simp only at h
  split_ifs at h
  split at h <;> cases h
  exact .logical (logicalOp_cases _) (isWidth_widthOf w) .imm

/-- Logical operations with a shifted register are regular. One of them, an inclusive or with the
zero register and no shift, is read as a move. -/
theorem regular_readLogicalReg {w : Opcode} {inst : Instruction}
    (h : readLogicalReg w = some inst) : Regular inst := by
  unfold readLogicalReg at h
  simp only at h
  split_ifs at h with haccept hmove <;> cases h
  · exact .move (isWidth_widthOf w)
  · exact .logical (logicalOp_cases _) (isWidth_widthOf w)
      (.shifted rfl (amount_lt_widthOf fun hle => haccept (.inr hle)))

/-- Moves of a 16-bit immediate are regular. -/
theorem regular_readMoveWide {w : Opcode} {inst : Instruction} (h : readMoveWide w = some inst) :
    Regular inst := by
  unfold readMoveWide at h
  simp only at h
  split_ifs at h
  split at h <;> cases h <;> exact .moveWide (by simp) (isWidth_widthOf w)

/-- Conditional compares are regular: an immediate has five bits and the flags have four, so both
are small. -/
theorem regular_readCondCompare (w : Opcode) : Regular (readCondCompare w) := by
  have himm : field w 16 5 < 32 := field_lt w 16 5
  have hnzcv : field w 0 4 < 16 := field_lt w 0 4
  refine .condCompare (by split <;> simp) (isWidth_widthOf w) ?_ ?_
  · split
    · refine .imm ?_
      simp only [Immediate.shifted, BitVec.shiftLeft_zero, BitVec.toNat_ofNat]
      omega
    · exact .reg
  · rw [BitVec.le_def, BitVec.toNat_ofNat]
    show _ ≤ 15
    omega

/-- Loads and stores of one register are regular. The size field decides between the shapes:
bytes and halfwords go with a register of the lower width.

**Proof sketch.** By the four values of the size field: the two lower ones are narrow
accesses, the two upper ones accesses of a word as wide as its register. -/
theorem regular_readLoadStore {w : Opcode} {inst : Instruction} (h : readLoadStore w = some inst) :
    Regular inst := by
  have hsize : field w 30 2 < 4 := field_lt w 30 2
  unfold readLoadStore at h
  simp only at h
  split at h
  · cases h
  · cases h
    match hs : field w 30 2 with
    | 0 => exact .narrow (by simp only; split <;> simp) rfl
    | 1 => exact .narrow (by simp only; split <;> simp) rfl
    | n + 2 =>
      refine .word (by simp only; split <;> simp) ?_
      simp only [registerAt]
      split <;> rfl

/-- Loads and stores of two registers are regular: the two have the same width. -/
theorem regular_readPair (w : Opcode) : Regular (readPair w) :=
  .pair (by split <;> simp) (isWidth_widthOf w) rfl

/-- **Every word that is understood is a regular instruction.**

**Proof sketch.** By the class of the word. Where reading cannot fail, the shape is read off;
where it can, the lemma on that class gives it. -/
theorem regular_of_decode {w : Opcode} {inst : Instruction} (h : decode w = some inst) :
    Regular inst := by
  unfold decode at h
  obtain ⟨form, -, hread⟩ := Option.bind_eq_some_iff.1 h
  cases form with
  | nop => cases hread; exact .nop
  | ret => cases hread; exact .ret
  | branch => cases hread; exact .branch
  | branchCond => cases hread; exact .branchCond
  | address => cases hread; exact .address rfl
  | addSubImm => cases hread; exact regular_readAddSubImm w
  | addSubReg => exact regular_readAddSubReg hread
  | logicalImm => exact regular_readLogicalImm hread
  | logicalReg => exact regular_readLogicalReg hread
  | moveWide => exact regular_readMoveWide hread
  | condCompare => cases hread; exact regular_readCondCompare w
  | loadStore => exact regular_readLoadStore hread
  | pair => cases hread; exact regular_readPair w

/-! ## Effects of regular instructions -/

/-- The registers that an instruction uses. A return names a register but does not look at it. -/
def Instruction.named (inst : Instruction) : List Register :=
  if inst.op = .ret then [] else inst.operands.flatMap Operand.registers

/-- A computation has no result when its first part has none, or else when the rest has none,
provided that the rest does so whatever the first part gives. -/
theorem bind_eq_none_iff {α β : Type} {o : Option α} {k : α → Option β} {p : Prop}
    (h : ∀ a, k a = none ↔ p) : (do let a ← o; k a) = none ↔ o = none ∨ p := by
  cases o with
  | none => simp
  | some a => simp [h]

namespace Operand

/-- A register as an operand uses itself. -/
@[simp] theorem registers_reg (r : Register) : (reg r).registers = [r] := rfl

/-- A shifted register as an operand uses the register. -/
@[simp] theorem registers_shifted (r : Register) (kind : ShiftKind) (amount : Nat) :
    (shifted r kind amount).registers = [r] := rfl

/-- An immediate uses no register. -/
@[simp] theorem registers_imm (i : Immediate) : (imm i).registers = [] := rfl

/-- A condition uses no register. -/
@[simp] theorem registers_cond (c : Condition) : (cond c).registers = [] := rfl

/-- A label uses no register. -/
@[simp] theorem registers_label (offset : Int) : (label offset).registers = [] := rfl

/-- A memory reference uses the register that its address is based on. -/
@[simp] theorem registers_mem (m : MemoryRef) : (mem m).registers = [m.base] := rfl

end Operand

/-- The operands that can stand last in a data processing instruction. -/
def Operand.IsSource : Operand → Prop
  | .imm _ | .reg _ | .shifted _ _ _ => True
  | _ => False

/-- The last operand of a sum or a compare has a value if its register has. -/
theorem Addend.isSource {width : Int} {src : Operand} (h : Addend width src) : src.IsSource := by
  cases h <;> trivial

/-- The last operand of a logical operation has a value if its register has. -/
theorem Mask.isSource {width : Int} {src : Operand} (h : Mask width src) : src.IsSource := by
  cases h <;> trivial

/-- The second operand of a conditional compare has a value if its register has. -/
theorem Comparand.isSource {src : Operand} (h : Comparand src) : src.IsSource := by
  cases h <;> trivial

namespace State

variable {s : State} {rd rn rt rt2 : Register} {src : Operand} {m : MemoryRef} {n : Nat}

/-- A source operand has no value exactly if it uses a register that is not mapped. -/
theorem source_eq_none_iff {w : Nat} (h : src.IsSource) :
    s.source w src = none ↔ ∃ r ∈ src.registers, ¬ r.Mapped := by
  cases src with
  | imm i => simp [source, Operand.registers]
  | reg r => simp [source, Operand.registers, read_eq_none_iff]
  | shifted r k n => simp [source, Operand.registers, read_eq_none_iff]
  | cond | label | mem | absent => cases h

/-- A memory reference has no address exactly if its base is not mapped. -/
theorem address_eq_none_iff : s.address m = none ↔ ¬ m.base.Mapped := by
  simp [address, read_eq_none_iff]

/-- Writing a register and going on from there, which cannot fail any more, gives nothing exactly
if the register is not mapped. -/
theorem write_bind_eq_none_iff {α : Type} {v : Word} {k : State → α} :
    (do let t ← s.write rd v; some (k t)) = none ↔ ¬ rd.Mapped := by
  rw [← write_eq_none_iff (s := s) (v := v)]
  exact (bind_eq_none_iff (p := False) (by simp)).trans (iff_of_eq (or_false _))

/-- A sum or difference has no effect exactly if one of the registers that it uses is not mapped. -/
theorem sum_eq_none_iff {sub flags : Bool} (h : src.IsSource) : s.sum rd rn src sub flags = none ↔
    ¬ rd.Mapped ∨ ¬ rn.Mapped ∨ ∃ r ∈ src.registers, ¬ r.Mapped := by
  have hnone : s.sum rd rn src sub flags = none ↔
      s.read rn = none ∨ s.source (bits rd.width) src = none ∨ ¬ rd.Mapped :=
    bind_eq_none_iff fun x => bind_eq_none_iff fun y => write_bind_eq_none_iff
  rw [hnone, read_eq_none_iff, source_eq_none_iff h, ← or_assoc, or_comm]

/-- A logical operation has no effect exactly if one of the registers that it uses is not mapped. -/
theorem logical_eq_none_iff {op : Bitwise} {flags : Bool} (h : src.IsSource) :
    s.logical rd rn src op flags = none ↔
      ¬ rd.Mapped ∨ ¬ rn.Mapped ∨ ∃ r ∈ src.registers, ¬ r.Mapped := by
  have hnone : s.logical rd rn src op flags = none ↔
      s.read rn = none ∨ s.source (bits rd.width) src = none ∨ ¬ rd.Mapped :=
    bind_eq_none_iff fun x => bind_eq_none_iff fun y => write_bind_eq_none_iff
  rw [hnone, read_eq_none_iff, source_eq_none_iff h, ← or_assoc, or_comm]

/-- The flags of a compare cannot be told exactly if one of the registers compared is not mapped. -/
theorem compareFlags_eq_none_iff {sub : Bool} (h : src.IsSource) :
    s.compareFlags rn src sub = none ↔ ¬ rn.Mapped ∨ ∃ r ∈ src.registers, ¬ r.Mapped := by
  have hnone : s.compareFlags rn src sub = none ↔
      s.read rn = none ∨ s.source (bits rn.width) src = none ∨ False :=
    bind_eq_none_iff fun x => bind_eq_none_iff fun y => by simp
  rw [hnone, read_eq_none_iff, source_eq_none_iff h, or_false]

/-- A conditional compare has no effect exactly if one of the registers compared is not mapped.
This is so also where the condition does not hold and the registers are not compared. -/
theorem condCompare_eq_none_iff {nzcv : Word} {c : Condition} {sub : Bool} (h : src.IsSource) :
    s.condCompare rn src nzcv c sub = none ↔ ¬ rn.Mapped ∨ ∃ r ∈ src.registers, ¬ r.Mapped := by
  have hnone : s.condCompare rn src nzcv c sub = none ↔
      s.compareFlags rn src sub = none ∨ False :=
    bind_eq_none_iff fun f => by simp
  rw [hnone, compareFlags_eq_none_iff h, or_false]

/-- Moving a value to a register has no effect exactly if the register is not mapped. -/
theorem move_eq_none_iff {v : Word} : s.move rd v = none ↔ ¬ rd.Mapped := by
  simp [move, write_eq_none_iff]

/-- Moving what comes of one register to another has no effect exactly if one of the two is not
mapped. -/
theorem read_bind_move_eq_none_iff {f : Word → Word} :
    (do let v ← s.read rn; s.move rd (f v)) = none ↔ ¬ rd.Mapped ∨ ¬ rn.Mapped := by
  rw [bind_eq_none_iff fun v => move_eq_none_iff, read_eq_none_iff, or_comm]

/-- A load has no effect exactly if the register loaded or the base of the address is not mapped.
An access that is refused is an effect: it is a fault. -/
theorem load_eq_none_iff : s.load rt m n = none ↔ ¬ rt.Mapped ∨ ¬ m.base.Mapped := by
  have hnone : s.load rt m n = none ↔ s.address m = none ∨ ¬ rt.Mapped :=
    bind_eq_none_iff fun a => write_bind_eq_none_iff
  rw [hnone, address_eq_none_iff, or_comm]

/-- A store has no effect exactly if the register stored or the base of the address is not
mapped. -/
theorem store_eq_none_iff : s.store rt m n = none ↔ ¬ rt.Mapped ∨ ¬ m.base.Mapped := by
  have hnone : s.store rt m n = none ↔ s.read rt = none ∨ s.address m = none ∨ False :=
    bind_eq_none_iff fun v => bind_eq_none_iff fun a => by simp
  rw [hnone, read_eq_none_iff, address_eq_none_iff, or_false]

/-- Loading two registers has no effect exactly if one of them or the base of the address is not
mapped. -/
theorem loadPair_eq_none_iff : s.loadPair rt rt2 m n = none ↔
    ¬ rt.Mapped ∨ ¬ rt2.Mapped ∨ ¬ m.base.Mapped := by
  have hnone : s.loadPair rt rt2 m n = none ↔
      s.address m = none ∨ ¬ rt.Mapped ∨ ¬ rt2.Mapped := by
    refine bind_eq_none_iff fun a => ?_
    rw [bind_eq_none_iff fun t => write_bind_eq_none_iff, write_eq_none_iff]
  rw [hnone, address_eq_none_iff]
  tauto

/-- Storing two registers has no effect exactly if one of them or the base of the address is not
mapped. -/
theorem storePair_eq_none_iff : s.storePair rt rt2 m n = none ↔
    ¬ rt.Mapped ∨ ¬ rt2.Mapped ∨ ¬ m.base.Mapped := by
  have hnone : s.storePair rt rt2 m n = none ↔
      s.read rt = none ∨ s.read rt2 = none ∨ s.address m = none ∨ False :=
    bind_eq_none_iff fun v => bind_eq_none_iff fun v2 => bind_eq_none_iff fun a => by simp
  rw [hnone, read_eq_none_iff, read_eq_none_iff, address_eq_none_iff, or_false]

/-- **A regular instruction has an effect exactly when the registers it uses are mapped.**

**Proof sketch.** By the shape of the instruction. Each shape has its own lemma above, which
names the registers that are read and written; together they are those that the instruction
names. -/
theorem step_eq_none_iff {pc : Word} {inst : Instruction} (h : Regular inst) :
    s.step pc inst = none ↔ ∃ r ∈ inst.named, ¬ r.Mapped := by
  cases h with
  | sum hop hw hsrc =>
    obtain rfl | rfl | rfl | rfl := hop <;>
      simp [step, sum_eq_none_iff hsrc.isSource, Instruction.named]
  | compare hop hw hsrc =>
    obtain rfl | rfl := hop <;>
      simp [step, compareFlags_eq_none_iff hsrc.isSource, Instruction.named]
  | condCompare hop hw hsrc hnzcv =>
    obtain rfl | rfl := hop <;>
      simp [step, condCompare_eq_none_iff hsrc.isSource, Instruction.named]
  | logical hop hw hsrc =>
    obtain rfl | rfl | rfl | rfl := hop <;>
      simp [step, logical_eq_none_iff hsrc.isSource, Instruction.named]
  | move hw =>
    refine (read_bind_move_eq_none_iff (f := id)).trans ?_
    simp [Instruction.named]
  | moveWide hop hw =>
    obtain rfl | rfl | rfl := hop
    · simp [step, Instruction.named, move_eq_none_iff]
    · simp [step, Instruction.named, move_eq_none_iff]
    · refine read_bind_move_eq_none_iff.trans ?_
      simp [Instruction.named]
  | address hw => simp [step, Instruction.named, move_eq_none_iff]
  | word hop hw =>
    obtain rfl | rfl := hop <;>
      simp [step, load_eq_none_iff, store_eq_none_iff, Instruction.named]
  | narrow hop hw =>
    obtain rfl | rfl | rfl | rfl := hop <;>
      simp [step, load_eq_none_iff, store_eq_none_iff, Instruction.named]
  | pair hop hw hw2 =>
    obtain rfl | rfl := hop <;>
      simp [step, loadPair_eq_none_iff, storePair_eq_none_iff, Instruction.named]
  | branch => simp [step, Instruction.named]
  | branchCond => simp [step, Instruction.named]
  | ret => simp [step, Instruction.named]
  | nop => simp [step, Instruction.named]

end State

end Dynarec.Guest
