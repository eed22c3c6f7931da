import Dynarec.Proofs.Lower.Data

/-!
# Move code

The code of moves sets a register to a copy, a constant, an address, or its own value with a field
replaced.

## Main results

* `Dynarec.Lower.move_realizes`, `Dynarec.Lower.moveZero_realizes`,
  `Dynarec.Lower.moveNot_realizes`, `Dynarec.Lower.moveKeep_realizes`,
  `Dynarec.Lower.addressOf_realizes` — moves are lowered as they are meant.
-/

set_option autoImplicit false

namespace Dynarec.Lower

open Host (Reg Inst State AluOp)
open Guest (Operand Register Instruction Immediate bits)

/-! ## Moves -/

/-- Writing a register is the whole of what an instruction does. -/
theorem move_of_write {g t : Guest.State} {rd : Register} {v : Word}
    (h : g.write rd ((v.setWidth (bits rd.width)).setWidth 64) = some t) :
    g.move rd v = some (.next t) := by
  rw [Guest.State.move, h]
  rfl

/-- The code of a move, for operands of the right kinds. -/
theorem move_eq (rd rm : Register) :
    move { op := .mov, operands := [.reg rd, .reg rm] } =
      readRegister rm >>= fun h => goOn >>= fun _ => writeRegister rd h := by
  simp [move, wantOperands, registerAt, operandAt]

/-- **Copying a register** is lowered as it is meant.

**Proof sketch.** The register is read into a scratch register (`readRegister_lowers`), which
is then written to the other (`writeRegister_lowers`). -/
theorem move_realizes {rd rm : Register} {pc : Word} (hw : Host.isWidth rd.width) :
    Realizes (move { op := .mov, operands := [.reg rd, .reg rm] }) pc
      { op := .mov, operands := [.reg rd, .reg rm] } fun _ => True := by
  intro e
  rw [move_eq, named_of_ne (by simp)]
  refine .bind ((readRegister_lowers rm e).mono (fun _ _ _ => id)
    fun f hf => hf.mono (by simp) (by omega)) ?_
  rintro h e₁ w₁ ⟨hh, -, hadds, hread⟩
  have huse : e₁.goOn.scratch.inUse h := by simp [hadds.scratch]
  have hfree : e.scratch.free ≤ e₁.scratch.free + 1 := by
    rw [hadds.scratch]
    exact e.scratch.free_le_reserve h
  refine .goOn_bind ((writeRegister_lowers rd h hw hh e₁.goOn huse).mono ?_
    fun f hf => hf.lift (by simp) (by rw [Emission.scratch_goOn]; omega))
  rintro _ e₂ w₂ ⟨hadds₂, hwrite⟩
  refine ⟨by simp [hadds₂.goesOn, Guest.Op.endsLine], fun s => ?_⟩
  obtain ⟨t, ht, hheld, hguest, hx⟩ := hread s
  obtain ⟨u, hu, hheld', -, hguest'⟩ := hwrite t
  rw [hguest] at hguest'
  refine ⟨.next u.guest, ?_, fun _ => ?_⟩
  · have hstep : s.guest.step pc { op := .mov, operands := [.reg rd, .reg rm] } =
        (s.guest.read rm).bind (s.guest.move rd) := rfl
    rw [hstep, hx]
    exact move_of_write hguest'
  · rw [Meaning.andThen_of_fell ht, hu]
    exact .next (hheld.empty.trans hheld'.empty)

/-- An instruction that sets a register to a constant.

**Proof sketch.** The code writes the constant (`writeRegisterImm_lowers`), which is the
effect of the step. -/
theorem writeRegisterImm_realizes {o : Guest.Op} {rd : Register} {src : Operand} {pc : Word}
    (hw : Host.isWidth rd.width) (v : Word)
    (hstep : ∀ s : Guest.State, s.step pc { op := o, operands := [.reg rd, src] } = s.move rd v)
    (hends : o.endsLine = false) :
    Realizes (do goOn; writeRegisterImm rd v) pc { op := o, operands := [.reg rd, src] }
      fun _ => True := by
  intro e
  rw [named_of_ne (by rintro rfl; cases hends)]
  refine .goOn_bind ((writeRegisterImm_lowers rd v hw e.goOn).mono ?_
    fun f hf => hf.mono (by simp) (by omega))
  rintro _ e' w ⟨hadds, hwrite⟩
  refine ⟨by simp [hadds.goesOn, hends], fun s => ?_⟩
  obtain ⟨t, ht, hheld, hguest⟩ := hwrite s
  refine ⟨.next t.guest, ?_, fun _ => ht ▸ .next hheld.empty⟩
  rw [hstep]
  exact move_of_write hguest

/-- The operands of a move of a constant are taken as they are, if they are of the right kinds. -/
theorem wideOperands_eq (o : Guest.Op) (rd : Register) (i : Immediate) :
    wideOperands { op := o, operands := [.reg rd, .imm i] } = pure (rd, i) := by
  simp [wideOperands, wantOperands, registerAt, immediateAt, operandAt]

/-- The code of a move of a constant with zeros around it, for operands of the right kinds. -/
theorem moveZero_eq (rd : Register) (i : Immediate) :
    moveZero { op := .movz, operands := [.reg rd, .imm i] } =
      (do goOn; writeRegisterImm rd i.shifted) := by
  rw [moveZero, wideOperands_eq, pure_bind]

/-- The code of a move of an inverted constant, for operands of the right kinds. -/
theorem moveNot_eq (rd : Register) (i : Immediate) :
    moveNot { op := .movn, operands := [.reg rd, .imm i] } =
      (do goOn; writeRegisterImm rd (~~~i.shifted)) := by
  rw [moveNot, wideOperands_eq, pure_bind]

/-- The code that takes an address near the program counter, for operands of the right kinds. -/
theorem addressOf_eq (rd : Register) (offset : Int) (pc : Word) :
    addressOf { op := .adr, operands := [.reg rd, .label offset] } pc =
      (do goOn; writeRegisterImm rd (pc + BitVec.ofInt 64 offset)) := by
  simp [addressOf, wantOperands, registerAt, labelAt, operandAt]

/-- **Setting a register to an immediate** is lowered as it is meant. -/
theorem moveZero_realizes {rd : Register} {i : Immediate} {pc : Word}
    (hw : Host.isWidth rd.width) :
    Realizes (moveZero { op := .movz, operands := [.reg rd, .imm i] }) pc
      { op := .movz, operands := [.reg rd, .imm i] } fun _ => True := by
  rw [moveZero_eq]
  exact writeRegisterImm_realizes hw _ (fun s => rfl) rfl

/-- **Setting a register to a complement** is lowered as it is meant. -/
theorem moveNot_realizes {rd : Register} {i : Immediate} {pc : Word}
    (hw : Host.isWidth rd.width) :
    Realizes (moveNot { op := .movn, operands := [.reg rd, .imm i] }) pc
      { op := .movn, operands := [.reg rd, .imm i] } fun _ => True := by
  rw [moveNot_eq]
  exact writeRegisterImm_realizes hw _ (fun s => rfl) rfl

/-- **Addresses relative to an instruction** are lowered as they are meant. -/
theorem addressOf_realizes {rd : Register} {offset : Int} {pc : Word}
    (hw : Host.isWidth rd.width) :
    Realizes (addressOf { op := .adr, operands := [.reg rd, .label offset] } pc) pc
      { op := .adr, operands := [.reg rd, .label offset] } fun _ => True := by
  rw [addressOf_eq]
  exact writeRegisterImm_realizes hw _ (fun s => rfl) rfl

/-- Combining a register with a constant, all bits of it.

**Proof sketch.** The operation is applied to the value of the register and the constant
(`aluConst_lowers`), and of its result no bit is cut. -/
theorem aluConst_bitwise {op : AluOp} (bitwise : Guest.Bitwise)
    (hop : ∀ (w : Nat) (f : Host.Flags) (x y : BitVec w), op.apply f x y =
      some (some (bitwise.apply x y), f.ofLogic (bitwise.apply x y)))
    {dst : Reg} (hdst : dst ∈ Scratch.pool) (v : Word) (e : Emission)
    (huse : e.scratch.inUse dst) :
    Lowers (aluConst op 64 dst v) e
      (fun _ e' w => Adds 2 e.scratch e e' ∧ ∀ s, ∃ t, w s = .fell t ∧
        Held (e.scratch.release dst) s t ∧ t.guest = s.guest ∧
          t.reg dst = bitwise.apply (s.reg dst) v)
      (Refused [] 1 e.scratch) := by
  refine (aluConst_lowers op dst v rfl e huse).mono ?_ fun f hf => hf
  rintro _ e' w ⟨hadds, hrun⟩
  refine ⟨hadds, fun s => ?_⟩
  have hu : s.alu op 64 dst (s.reg dst) v =
      some ((s.setReg dst (bitwise.apply (s.reg dst) v)).setFlags
        (s.flags.ofLogic (bitwise.apply (s.reg dst) v))) := by
    simp [Host.State.alu, hop]
  obtain ⟨t, ht, hheld, -, hguest⟩ := hrun s _ hu
  refine ⟨t, ht, .trans ?_ (hheld.release dst), hguest, ?_⟩
  · exact .of_others hdst (by simp) fun q hq => by simp [hq]
  · rw [hheld dst (.inl huse)]
    simp

/-- The code of a move of a constant into a part of a register, for operands of the right kinds. -/
theorem moveKeep_eq (rd : Register) (i : Immediate) :
    moveKeep { op := .movk, operands := [.reg rd, .imm i] } =
      readRegister rd >>= fun h =>
        (do
          aluConst .and 64 h (~~~((0xFFFF : Word) <<< i.shift))
          if i.value ≠ 0 then aluConst .or 64 h i.shifted else pure ()) >>= fun _ =>
            goOn >>= fun _ => writeRegister rd h := by
  rw [moveKeep, wideOperands_eq, pure_bind]
  by_cases hzero : i.value = 0#64 <;> simp [hzero]

/-- Replacing a field of a register.

**Proof sketch.** The bits of the field are cleared, and then set to the new ones. If those
are all zero, there is nothing left to set. -/
theorem replaceField_lowers {h : Reg} (hh : h ∈ Scratch.pool) (i : Immediate) (e : Emission)
    (huse : e.scratch.inUse h) :
    Lowers (do
        aluConst .and 64 h (~~~((0xFFFF : Word) <<< i.shift))
        if i.value ≠ 0 then aluConst .or 64 h i.shifted else pure ()) e
      (fun _ e' w => e'.scratch = e.scratch ∧ ∀ s, ∃ t, w s = .fell t ∧ Held {} s t ∧
        t.guest = s.guest ∧
          t.reg h = ((s.reg h &&& ~~~((0xFFFF : Word) <<< i.shift)) ||| i.shifted))
      (Refused [] 1 e.scratch) := by
  refine .bind (aluConst_bitwise .and (fun w f x y => rfl) hh _ e huse) ?_
  rintro _ e₁ w₁ ⟨hadds₁, hand⟩
  by_cases hzero : i.value = 0
  · rw [if_neg (by simpa using hzero)]
    refine .pure ⟨hadds₁.scratch, fun s => ?_⟩
    obtain ⟨t, ht, hheld, hguest, hvalue⟩ := hand s
    refine ⟨t, by simpa using ht, hheld.empty, hguest, ?_⟩
    rw [hvalue]
    simp [Immediate.shifted, hzero, Guest.Bitwise.apply]
  · rw [if_pos hzero]
    refine (aluConst_bitwise .or (fun w f x y => rfl) hh _ e₁
      (by rw [hadds₁.scratch, huse])).mono ?_ fun f hf => by rwa [hadds₁.scratch] at hf
    rintro _ e₂ w₂ ⟨hadds₂, hor⟩
    refine ⟨hadds₂.scratch.trans hadds₁.scratch, fun s => ?_⟩
    obtain ⟨t, ht, hheld, hguest, hvalue⟩ := hand s
    obtain ⟨u, hu, hheld', hguest', hvalue'⟩ := hor t
    refine ⟨u, ?_, hheld.empty.trans hheld'.empty, hguest'.trans hguest, ?_⟩
    · rw [Meaning.andThen_of_fell ht, hu]
    · rw [hvalue', hvalue]
      rfl

/-- **Replacing a field** is lowered as it is meant.

**Proof sketch.** The register is read (`readRegister_lowers`), its field is replaced
(`replaceField_lowers`), and it is written back (`writeRegister_lowers`). -/
theorem moveKeep_realizes {rd : Register} {i : Immediate} {pc : Word}
    (hw : Host.isWidth rd.width) :
    Realizes (moveKeep { op := .movk, operands := [.reg rd, .imm i] }) pc
      { op := .movk, operands := [.reg rd, .imm i] } fun _ => True := by
  intro e
  rw [moveKeep_eq, named_of_ne (by simp)]
  refine .bind ((readRegister_lowers rd e).mono (fun _ _ _ => id)
    fun f hf => hf.mono (by simp) (by omega)) ?_
  rintro h e₁ w₁ ⟨hh, -, hadds, hread⟩
  have huse : e₁.scratch.inUse h := by simp [hadds.scratch]
  have hfree : e.scratch.free ≤ e₁.scratch.free + 1 := by
    rw [hadds.scratch]
    exact e.scratch.free_le_reserve h
  refine .bind ((replaceField_lowers hh i e₁ huse).mono (fun _ _ _ => id)
    fun f hf => hf.lift (by simp) (by omega)) ?_
  rintro _ e₂ w₂ ⟨hscratch, hreplace⟩
  refine .goOn_bind ((writeRegister_lowers rd h hw hh e₂.goOn ?_).mono ?_
    fun f hf => hf.lift (by simp) (by rw [Emission.scratch_goOn, hscratch]; omega))
  · rw [Emission.scratch_goOn, hscratch, huse]
  · rintro _ e₃ w₃ ⟨hadds₃, hwrite⟩
    refine ⟨by simp [hadds₃.goesOn, Guest.Op.endsLine], fun s => ?_⟩
    obtain ⟨t, ht, hheld, hguest, hx⟩ := hread s
    obtain ⟨u, hu, hheld', hguest', hvalue⟩ := hreplace t
    obtain ⟨v, hv, hheld'', -, hguest''⟩ := hwrite u
    rw [hguest', hguest, hvalue] at hguest''
    refine ⟨.next v.guest, ?_, fun _ => ?_⟩
    · have hstep : s.guest.step pc { op := .movk, operands := [.reg rd, .imm i] } =
          (s.guest.read rd).bind fun x =>
            s.guest.move rd ((x &&& ~~~((0xFFFF : Word) <<< i.shift)) ||| i.shifted) := rfl
      rw [hstep, hx]
      exact move_of_write hguest''
    · rw [Meaning.andThen_of_fell ht, Meaning.andThen_of_fell hu, hv]
      exact .next (hheld.empty.trans (hheld'.trans hheld''.empty))

end Dynarec.Lower
