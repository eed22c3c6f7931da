import Dynarec.Proofs.Lower.Scratch

/-!
# Cells, guest registers and exits

The code that reads and writes guest registers, applies constants, and leaves a block.

## Main results

* `Dynarec.Lower.storeCell_lowers`, `Dynarec.Lower.storeCellImm_lowers` — writing a cell.
* `Dynarec.Lower.readRegister_lowers`, `Dynarec.Lower.readShifted_lowers` — reading a guest
  register.
* `Dynarec.Lower.writeRegister_lowers`, `Dynarec.Lower.writeRegisterImm_lowers` — writing a guest
  register.
* `Dynarec.Lower.aluConst_lowers` — operations with a constant, whatever its size.
* `Dynarec.Lower.exit_lowers`, `Dynarec.Lower.exitWith_lowers` — leaving the block.
-/

set_option autoImplicit false

namespace Dynarec

open Host (Reg Inst State)
open Code (Walked walk)

/-! ## Single instructions -/

namespace Host

namespace State

/-- The state with a cell replaced. -/
def setCell (s : State) (c : Cell) (v : Word) : State :=
  { s with cells := s.cells.set c v }

/-- Replacing a cell leaves the host registers as they are. -/
@[simp] theorem reg_setCell (s : State) (c : Cell) (v : Word) (r : Reg) :
    (s.setCell c v).reg r = s.reg r := rfl

/-- Replacing a cell replaces it for the guest. -/
@[simp] theorem guest_setCell (s : State) (c : Cell) (v : Word) :
    (s.setCell c v).guest = { s.guest with registers := s.guest.registers.set c v } := rfl

/-- An operation with a result at either width. -/
theorem alu_of_apply {s : State} {op : AluOp} {width : Int} (hw : isWidth width) {dst : Reg}
    {x y : Word} {r : BitVec (Guest.bits width)} {f : Flags}
    (h : op.apply s.flags (x.setWidth (Guest.bits width)) (y.setWidth (Guest.bits width)) =
      some (some r, f)) :
    s.alu op width dst x y = some ((s.setReg dst (r.setWidth 64)).setFlags f) := by
  obtain rfl | rfl : width = 32 ∨ width = 64 := by simpa [isWidth] using hw
  · change BitVec 32 at r
    change op.apply s.flags (x.setWidth 32) (y.setWidth 32) = _ at h
    simp only [alu, h]
    rfl
  · change BitVec 64 at r
    change op.apply s.flags (x.setWidth 64) (y.setWidth 64) = _ at h
    change _ = some ((s.setReg dst (BitVec.setWidth 64 r)).setFlags f)
    simp only [BitVec.setWidth_eq] at h ⊢
    simp only [alu, h]
    rfl

/-- A compare at either width. -/
theorem alu_cmp {s : State} {width : Int} (hw : isWidth width) {dst : Reg} {x y : Word} :
    s.alu .cmp width dst x y =
      some (s.setFlags
        (.ofSub (x.setWidth (Guest.bits width)) (y.setWidth (Guest.bits width)))) := by
  obtain rfl | rfl : width = 32 ∨ width = 64 := by simpa [isWidth] using hw
  · rfl
  · simp [alu, AluOp.apply, Guest.bits]

/-- An operation does not depend on registers that are not its operands.

**Proof sketch.** An operation reads the flags and the two values it is given, in either
width, and so comes to the same result. -/
theorem alu_setReg {s u : State} {op : AluOp} {width : Int} {dst : Reg} {x y : Word}
    (h : s.alu op width dst x y = some u) (tmp : Reg) (v : Word) :
    ∃ t, (s.setReg tmp v).alu op width dst x y = some t ∧ t.flags = u.flags ∧
      t.guest = u.guest ∧ ∀ q, q ≠ tmp → t.reg q = u.reg q := by
  unfold alu at h ⊢
  rw [flags_setReg]
  by_cases hwide : width = 64
  · rw [if_pos hwide] at h ⊢
    rcases happly : op.apply s.flags x y with _ | ⟨_ | r, f⟩ <;> rw [happly] at h <;> cases h
    · exact ⟨_, rfl, rfl, rfl, fun q hq => by simp [hq]⟩
    · exact ⟨_, rfl, rfl, rfl, fun q hq => by simp [hq]⟩
  rw [if_neg hwide] at h ⊢
  by_cases hnarrow : width = 32
  · rw [if_pos hnarrow] at h ⊢
    rcases happly : op.apply s.flags (x.setWidth 32) (y.setWidth 32) with _ | ⟨_ | r, f⟩ <;>
      rw [happly] at h <;> cases h
    · exact ⟨_, rfl, rfl, rfl, fun q hq => by simp [hq]⟩
    · exact ⟨_, rfl, rfl, rfl, fun q hq => by simp [hq]⟩
  · rw [if_neg hnarrow] at h
    cases h

/-- At width 32 only the low halves of the operands matter. -/
theorem alu_narrow {s : State} {op : AluOp} {dst : Reg} {x y y' : Word}
    (h : y.setWidth 32 = y'.setWidth 32) : s.alu op 32 dst x y = s.alu op 32 dst x y' := by
  simp [alu, h]

/-- A shift at either width. -/
theorem shift_of_apply {s : State} {op : ShiftOp} {width : Int} (hw : isWidth width) {dst : Reg}
    {n : Nat} {r : BitVec (Guest.bits width)} {f : Flags}
    (h : op.apply s.flags ((s.reg dst).setWidth (Guest.bits width)) n = some (r, f)) :
    s.shift op width dst n = some ((s.setReg dst (r.setWidth 64)).setFlags f) := by
  obtain rfl | rfl : width = 32 ∨ width = 64 := by simpa [isWidth] using hw
  · change BitVec 32 at r
    change op.apply s.flags ((s.reg dst).setWidth 32) n = _ at h
    simp only [shift, h]
    rfl
  · change BitVec 64 at r
    change op.apply s.flags ((s.reg dst).setWidth 64) n = _ at h
    change _ = some ((s.setReg dst (BitVec.setWidth 64 r)).setFlags f)
    simp only [BitVec.setWidth_eq] at h ⊢
    simp only [shift, h]
    rfl

end State

end Host

namespace Lower

variable (s : State) (r q : Reg) (v : Word)

/-- A move of a whole register. -/
@[simp] theorem does_mov : does (.mov 64 r q) s = .fell (s.setReg r (s.reg q)) := rfl

/-- A move of the lower half of a register clears the upper half of the other. -/
@[simp] theorem does_movNarrow :
    does (.mov 32 r q) s = .fell (s.setReg r (((s.reg q).setWidth 32).setWidth 64)) := rfl

/-- A move of a constant in its shortest form. -/
@[simp] theorem does_movImm : does (.movImm r v) s = .fell (s.setReg r v) := rfl

/-- A move of a constant in its long form. -/
@[simp] theorem does_movAbs : does (.movAbs r v) s = .fell (s.setReg r v) := rfl

/-- The address without a displacement is the one in the base. -/
theorem address_zero : s.address r 0#32 = s.reg r := by
  simp [Host.State.address]

/-- Loading where the address in the base is that of a cell loads the cell. -/
theorem does_loadCell {c : Cell} (h : s.reg q = c.address) :
    does (.load r q 0 8) s = .fell (s.setReg r (s.cells.get c)) := by
  refine does_of_step ?_ (by simp)
  simp [Inst.step, Host.accessBytes?, address_zero, Host.State.load, h]

/-- Storing where the address in the base is that of a cell replaces the cell. -/
theorem does_storeCell {c : Cell} (h : s.reg q = c.address) :
    does (.store q 0 r 8) s = .fell (s.setCell c (s.reg r)) := by
  refine does_of_step ?_ (by simp)
  simp [Inst.step, Host.accessBytes?, address_zero, Host.State.store, h, Host.State.setCell]

/-- Storing a constant where the address in the base is that of a cell replaces the cell. The
constant is extended with its sign. -/
theorem does_storeImmCell {c : Cell} (h : s.reg q = c.address) (imm : BitVec 32) :
    does (.storeImm q 0 imm) s = .fell (s.setCell c (imm.signExtend 64)) := by
  refine does_of_step ?_ (by simp)
  simp [Inst.step, address_zero, Host.State.store, h, Host.State.setCell]

/-! ## Cells -/

/-- Storing a register into a cell changes that cell and a free register only. The register that
is stored is marked as in use, so that the address does not go into it. -/
theorem storeCell_lowers (c : Cell) (src : Reg) (e : Emission) :
    Lowers (storeCell c src) e
      (fun _ e' w => Adds 2 (e.scratch.reserve src) e e' ∧ ∀ s, ∃ t, w s = .fell t ∧
        Held (e.scratch.reserve src) s t ∧ t.flags = s.flags ∧
          t.guest = (s.setCell c (s.reg src)).guest)
      (Refused [] 2 e.scratch) := by
  refine .reserve_bind (.withScratch (fun addr haddr hfree => ?_) fun f hf => hf.reserve)
  refine .emit_bind ⟨_, rfl⟩ (.emit ⟨_, rfl⟩ ⟨⟨?_, rfl, ?_⟩, fun s => ?_⟩)
  · exact Scratch.release_reserve hfree
  · simp
  · have hne : src ≠ addr := Scratch.ne_of_free haddr hfree (.inl (by simp))
    refine ⟨(s.setReg addr c.address).setCell c (s.reg src), ?_, ?_, rfl, rfl⟩
    · rw [Meaning.andThen_of_fell (does_movAbs ..), does_storeCell (c := c) (h := by simp)]
      simp [hne]
    · exact (Held.refl _ s).setReg haddr hfree _

/-- A number that fits a signed 32-bit immediate is its own sign extension. -/
theorem signExtend_of_fitsInt32 {v : Word} (h : fitsInt32 v.toInt) :
    (v.setWidth 32).signExtend 64 = v := by
  refine BitVec.eq_of_toInt_eq ?_
  simp only [fitsInt32, decide_eq_true_eq] at h
  rw [BitVec.toInt_signExtend_of_le (by decide), BitVec.toInt_setWidth, Int.bmod_def]
  have hv := v.toInt_eq_toNat_cond
  omega

/-- Storing a constant into a cell changes that cell and free registers only. A constant that
does not fit into the store needs a register of its own, behind that of the address.

**Proof sketch.** The address of the cell is loaded, and then the constant is stored directly
if it fits. If not, it is loaded into another scratch register and stored from there. -/
theorem storeCellImm_lowers (c : Cell) (v : Word) (e : Emission) :
    Lowers (storeCellImm c v) e
      (fun _ e' w => Adds 3 e.scratch e e' ∧ ∀ s, ∃ t, w s = .fell t ∧
        Held e.scratch s t ∧ t.flags = s.flags ∧ t.guest = (s.setCell c v).guest)
      (Refused [] 2 e.scratch) := by
  refine .withScratch (fun addr haddr hfree => ?_) fun f hf => hf.mono (by simp) (by omega)
  refine .emit_bind ⟨_, rfl⟩ ?_
  split
  · rename_i hfits
    refine .emit ⟨_, rfl⟩ ⟨⟨Scratch.release_reserve hfree, rfl, ?_⟩, fun s => ?_⟩
    · simp
    · refine ⟨(s.setReg addr c.address).setCell c v, ?_, ?_, rfl, rfl⟩
      · rw [Meaning.andThen_of_fell (does_movAbs ..), does_storeImmCell (c := c) (h := by simp),
          signExtend_of_fitsInt32 hfits]
      · exact (Held.refl _ s).setReg haddr hfree _
  · refine .withScratch (fun val hval hfree' => ?_) fun f hf => hf.reserve
    refine .emit_bind ⟨_, rfl⟩ (.emit ⟨_, rfl⟩ ⟨⟨?_, rfl, ?_⟩, fun s => ?_⟩)
    · exact (congrArg (·.release addr) (Scratch.release_reserve hfree')).trans
        (Scratch.release_reserve hfree)
    · simp
    · have hne : addr ≠ val := Scratch.ne_of_free hval hfree' (.inl (by simp))
      have hval' : e.scratch.inUse val = false := by
        simp at hfree'
        exact hfree'.1
      refine ⟨((s.setReg addr c.address).setReg val v).setCell c v, ?_, ?_, rfl, rfl⟩
      · rw [Meaning.andThen_of_fell (does_movAbs ..), Meaning.andThen_of_fell (does_movImm ..),
          does_storeCell (c := c) (h := by simp [hne])]
        simp
      · exact ((Held.refl _ s).setReg haddr hfree _).setReg hval hval' _

/-! ## Guest registers -/

variable {α : Type} {e : Emission} {R : α → Emission → Meaning → Prop} {X : Failure → Prop}

/-- Looking up the cell of a register that is not the zero register adds no code. -/
theorem Lowers.cellOf_bind {r : Guest.Register} {k : Cell → Emit α} (hr : r.isZero = false)
    (h : ∀ c, Cell.ofRegister? r = some c → Lowers (k c) e R X)
    (hX : ∀ f, Refused [r] 0 e.scratch f → X f) : Lowers (cellOf r >>= k) e R X := by
  unfold cellOf
  cases hc : Cell.ofRegister? r with
  | some c => exact h c hc
  | none =>
    refine hX _ (.inl ⟨r, by simp, ?_, rfl⟩)
    rw [Guest.Register.mapped_iff_isSome_cell hr, hc]
    simp

/-- Reading a guest register puts its value into a register that was free.

**Proof sketch.** The zero register is read by clearing a scratch register. Any other that
can be read has a cell, whose address is loaded and then replaced by its value. -/
theorem readRegister_lowers (r : Guest.Register) (e : Emission) :
    Lowers (readRegister r) e
      (fun h e' w => h ∈ Scratch.pool ∧ e.scratch.inUse h = false ∧
        Adds 2 (e.scratch.reserve h) e e' ∧ ∀ s, ∃ t, w s = .fell t ∧
          Held e.scratch s t ∧ t.guest = s.guest ∧ s.guest.read r = some (t.reg h))
      (Refused [r] 1 e.scratch) := by
  refine .claim_bind (fun h hh hfree => ?_) fun f hf => hf.mono (by simp) (by omega)
  split
  · rename_i hzero
    refine .emit_bind ⟨_, rfl⟩ (.pure ⟨hh, hfree, ⟨rfl, rfl, by simp⟩, fun s => ?_⟩)
    refine ⟨(s.setReg h 0).setFlags (s.flags.ofLogic (0 : BitVec 32)), ?_,
      (Held.refl _ s).setReg hh hfree _, rfl, ?_⟩
    · rw [Meaning.andThen_fell]
      refine does_of_step ?_ (by simp)
      simp [Inst.step, Host.State.alu, Host.AluOp.apply]
    · simp [Guest.State.read, hzero]
  · rename_i hzero
    refine .cellOf_bind (by simpa using hzero) (fun c hc => ?_)
      fun f hf => hf.reserve.mono (by simp) (by omega)
    unfold loadCell
    simp only [bind_assoc]
    refine .emit_bind ⟨_, rfl⟩ (.emit_bind ⟨_, rfl⟩ (.pure ⟨hh, hfree, ⟨rfl, rfl, by simp⟩, ?_⟩))
    intro s
    refine ⟨(s.setReg h c.address).setReg h (s.cells.get c), ?_, ?_, rfl, ?_⟩
    · rw [Meaning.andThen_of_fell (does_movAbs ..), Meaning.andThen_fell,
        does_loadCell (c := c) (h := by simp)]
      rfl
    · exact ((Held.refl _ s).setReg hh hfree _).setReg hh hfree _
    · simp [Guest.State.read, hzero, hc, Host.State.guest]

/-- Extending a value to a whole register and cutting it back gives the value. -/
@[simp] theorem setWidth_setWidth_bits {width : Int} (x : BitVec (Guest.bits width)) :
    (x.setWidth 64).setWidth (Guest.bits width) = x := by
  have hle : Guest.bits width ≤ 64 := by
    unfold Guest.bits
    split <;> decide
  rw [BitVec.setWidth_setWidth_of_le _ hle, BitVec.setWidth_eq]

/-- The host shifts as the guest does, for every kind of shift and every amount that comes up.
The host flags are of no concern here. -/
theorem apply_hostShift {w : Nat} (kind : Guest.ShiftKind) (f : Host.Flags) (x : BitVec w)
    (n : Nat) :
    ∃ f', (hostShift kind).apply f x n = some (kind.apply x n, f') := by
  cases kind <;> exact ⟨_, rfl⟩

/-- A shift by nothing does nothing, whatever its kind. So no code is emitted for it. -/
theorem apply_zero {w : Nat} (kind : Guest.ShiftKind) (x : BitVec w) : kind.apply x 0 = x := by
  cases kind with
  | ror =>
    refine BitVec.eq_of_getLsbD_eq fun i hi => ?_
    simp [Guest.ShiftKind.apply, hi]
  | _ => simp [Guest.ShiftKind.apply]

/-- Reading a shifted guest register puts its value at the width of the register into a register
that was free.

**Proof sketch.** The register is read (`readRegister_lowers`) and then shifted by an amount
below its width, or not at all if the amount is zero. -/
theorem readShifted_lowers (r : Guest.Register) (kind : Guest.ShiftKind) (amount : Nat)
    (hw : Host.isWidth r.width) (hamount : (amount : Int) < r.width) (e : Emission) :
    Lowers (readShifted r kind amount) e
      (fun h e' w => h ∈ Scratch.pool ∧ e.scratch.inUse h = false ∧
        Adds 3 (e.scratch.reserve h) e e' ∧ ∀ s, ∃ t, w s = .fell t ∧
          Held e.scratch s t ∧ t.guest = s.guest ∧
            s.guest.source (Guest.bits r.width) (.shifted r kind amount) =
              some ((t.reg h).setWidth _))
      (Refused [r] 1 e.scratch) := by
  refine .bind (readRegister_lowers r e) ?_
  rintro h e₁ w₁ ⟨hh, hfree, hadds, hread⟩
  have hsmall : amount < 64 := by
    simp [Host.isWidth] at hw
    omega
  split
  · rename_i hne
    have henc : ∃ bytes, (Inst.shift (hostShift kind) r.width h (BitVec.ofNat 8 amount)).encode =
        .ok bytes := by
      have hn : amount % 256 = amount := by omega
      simp [Inst.encode, hw, hn, Int.not_le.2 hamount]
    refine .emit_bind henc (.pure ⟨hh, hfree, ?_, fun s => ?_⟩)
    · exact (hadds.trans (m := 1) ⟨hadds.scratch, rfl, by simp⟩)
    · obtain ⟨t, ht, hheld, hguest, hval⟩ := hread s
      have hn : (BitVec.ofNat 8 amount).toNat = amount := by
        rw [BitVec.toNat_ofNat]
        omega
      let x := (t.reg h).setWidth (Guest.bits r.width)
      obtain ⟨f, hf⟩ := apply_hostShift kind t.flags x amount
      refine ⟨(t.setReg h ((kind.apply x amount).setWidth 64)).setFlags f, ?_,
        (hheld.setReg hh hfree _).setFlags f, hguest, ?_⟩
      · rw [Meaning.andThen_of_fell ht, Meaning.andThen_fell]
        refine does_of_step ?_ (by simp)
        rw [Inst.step, hn]
        exact Host.State.shift_of_apply hw hf
      · simp [Guest.State.source, hval, x]
  · rename_i hzero
    obtain rfl : amount = 0 := by simpa using hzero
    refine .pure ⟨hh, hfree, hadds.mono (by omega), fun s => ?_⟩
    obtain ⟨t, ht, hheld, hguest, hval⟩ := hread s
    refine ⟨t, ?_, hheld, hguest, ?_⟩
    · simpa using ht
    · simp [Guest.State.source, hval, apply_zero]

/-- The operand width that is not the lower one is the greater. -/
theorem bits_of_ne {width : Int} (hw : Host.isWidth width) (h : width ≠ 32) :
    Guest.bits width = 64 := by
  have hw : width = 64 := by simpa [Host.isWidth, h] using hw
  simp [Guest.bits, hw]

/-- Writing a register that has a cell replaces the cell. -/
theorem write_of_cell {r : Guest.Register} {c : Cell} (hzero : ¬ r.isZero = true)
    (hc : Cell.ofRegister? r = some c) (s : State) (v : Word) :
    s.guest.write r v = some (s.setCell c v).guest := by
  simp [Guest.State.write, hzero, hc]

/-- Writing a guest register changes it, and the register that holds the value may be narrowed.
So behind the code that register no longer counts as held.

**Proof sketch.** Writing to the zero register needs no code. Otherwise the value is cut to
the width of the register, if that is narrow, and stored in its cell (`storeCell_lowers`). -/
theorem writeRegister_lowers (r : Guest.Register) (h : Reg) (hw : Host.isWidth r.width)
    (hh : h ∈ Scratch.pool) (e : Emission) (huse : e.scratch.inUse h) :
    Lowers (writeRegister r h) e
      (fun _ e' w => Adds 3 e.scratch e e' ∧ ∀ s, ∃ t, w s = .fell t ∧
        Held (e.scratch.release h) s t ∧ t.flags = s.flags ∧
          s.guest.write r (((s.reg h).setWidth (Guest.bits r.width)).setWidth 64) = some t.guest)
      (Refused [r] 2 e.scratch) := by
  unfold writeRegister
  split
  · rename_i hzero
    refine .pure ⟨(Adds.refl e).mono (by omega), fun s => ⟨s, rfl, .refl _ s, rfl, ?_⟩⟩
    simp [Guest.State.write, hzero]
  · rename_i hzero
    refine .cellOf_bind (by simpa using hzero) (fun c hc => ?_)
      fun f hf => hf.mono (by simp) (by omega)
    have hsame := Scratch.reserve_of_inUse huse
    have hfree : (e.scratch.release h).inUse h = false := by simp
    have hkeep : ∀ s t, Held (e.scratch.reserve h) s t → Held (e.scratch.release h) s t :=
      fun s t ht => ht.mono fun q hq => by simp_all
    split
    · rename_i hnarrow
      refine .emit_bind ⟨_, rfl⟩
        ((storeCell_lowers c h _).mono ?_ fun f hf => hf.mono (by simp) (by omega))
      rintro _ e' w ⟨hadds, hstore⟩
      refine ⟨hsame ▸ (Adds.emit e _).trans hadds, fun s => ?_⟩
      obtain ⟨t, ht, hheld, hflags, hguest⟩ :=
        hstore (s.setReg h (((s.reg h).setWidth 32).setWidth 64))
      refine ⟨t, ?_, ?_, hflags, ?_⟩
      · rw [Meaning.andThen_of_fell (does_movNarrow ..)]
        exact ht
      · exact ((Held.refl _ s).setReg hh hfree _).trans (hkeep _ _ hheld)
      · rw [write_of_cell hzero hc, hguest, hnarrow, Host.State.reg_setReg, if_pos rfl]
        rfl
    · rename_i hwide
      refine (storeCell_lowers c h _).mono ?_ fun f hf => hf.mono (by simp) (by omega)
      rintro _ e' w ⟨hadds, hstore⟩
      refine ⟨hsame ▸ hadds.mono (by omega), fun s => ?_⟩
      obtain ⟨t, ht, hheld, hflags, hguest⟩ := hstore s
      refine ⟨t, ht, hkeep _ _ hheld, hflags, ?_⟩
      rw [write_of_cell hzero hc, hguest, bits_of_ne hw hwide, BitVec.setWidth_eq,
        BitVec.setWidth_eq]

/-- Masking the lower half of a word is cutting it to the lower half and extending it again. -/
theorem and_low_mask (v : Word) : v &&& 0xFFFFFFFF = (v.setWidth 32).setWidth 64 := by
  refine BitVec.eq_of_toNat_eq ?_
  have hmask : v.toNat &&& 4294967295 = v.toNat % 4294967296 :=
    Nat.and_two_pow_sub_one_eq_mod v.toNat 32
  simp only [BitVec.toNat_and, BitVec.toNat_setWidth]
  change v.toNat &&& 4294967295 = _
  omega

/-- Writing a constant to a guest register changes that register only.

**Proof sketch.** Writing to the zero register needs no code. Otherwise the constant is cut
to the width of the register and stored in its cell (`storeCellImm_lowers`). -/
theorem writeRegisterImm_lowers (r : Guest.Register) (v : Word) (hw : Host.isWidth r.width)
    (e : Emission) :
    Lowers (writeRegisterImm r v) e
      (fun _ e' w => Adds 3 e.scratch e e' ∧ ∀ s, ∃ t, w s = .fell t ∧ Held e.scratch s t ∧
        s.guest.write r ((v.setWidth (Guest.bits r.width)).setWidth 64) = some t.guest)
      (Refused [r] 2 e.scratch) := by
  unfold writeRegisterImm
  split
  · rename_i hzero
    refine .pure ⟨(Adds.refl e).mono (by omega), fun s => ⟨s, rfl, .refl _ s, ?_⟩⟩
    simp [Guest.State.write, hzero]
  · rename_i hzero
    refine .cellOf_bind (by simpa using hzero) (fun c hc => ?_)
      fun f hf => hf.mono (by simp) (by omega)
    refine (storeCellImm_lowers c _ e).mono ?_ fun f hf => hf.mono (by simp) (by omega)
    rintro _ e' w ⟨hadds, hstore⟩
    refine ⟨hadds, fun s => ?_⟩
    obtain ⟨t, ht, hheld, -, hguest⟩ := hstore s
    refine ⟨t, ht, hheld, ?_⟩
    have hvalue : (if r.width = 32 then v &&& 0xFFFFFFFF else v) =
        (v.setWidth (Guest.bits r.width)).setWidth 64 := by
      split
      · rename_i hnarrow
        rw [and_low_mask, hnarrow]
        rfl
      · rename_i hwide
        rw [bits_of_ne hw hwide]
        simp
    rw [write_of_cell hzero hc, hguest, hvalue]

/-! ## Constants -/

/-- An operation with a constant gives what the operation gives, whether the constant has an
immediate form or goes through a scratch register. At the lower width a constant counts as small
if its lower half is, taken with its sign: the upper half does not matter.

**Proof sketch.** At the lower width the operation looks at the lower halves only, so the
constant can be replaced by one with another upper half. If it does not fit even then, it is
loaded into another scratch register, on which the operation does not depend otherwise
(`alu_setReg`). -/
theorem aluConst_lowers (op : Host.AluOp) {width : Int} (dst : Reg) (v : Word)
    (hw : Host.isWidth width) (e : Emission) (huse : e.scratch.inUse dst) :
    Lowers (aluConst op width dst v) e
      (fun _ e' w => Adds 2 e.scratch e e' ∧ ∀ s u, s.alu op width dst (s.reg dst) v = some u →
        ∃ t, w s = .fell t ∧ Held e.scratch u t ∧ t.flags = u.flags ∧ t.guest = u.guest)
      (Refused [] 1 e.scratch) := by
  unfold aluConst
  simp only
  generalize himm : (if width = 32 then (v.setWidth 32).signExtend 64 else v) = imm
  have hsame : ∀ (s : State) x, s.alu op width dst x imm = s.alu op width dst x v := by
    intro s x
    subst himm
    split
    · rename_i hnarrow
      subst hnarrow
      refine Host.State.alu_narrow ?_
      ext i hi
      have hlt : i < 64 := by omega
      simp [BitVec.getElem_signExtend, hi, hlt]
    · rfl
  split
  · rename_i hfits
    refine .emit (by simp [Inst.encode, hw, hfits])
      ⟨(Adds.emit e _).mono (by omega), fun s u hu => ⟨u, ?_, .refl _ u, rfl, rfl⟩⟩
    exact does_of_step ((hsame s _).trans hu) (by simp)
  · refine .withScratch (fun tmp htmp hfree => ?_) fun f hf => hf
    refine .emit_bind ⟨_, rfl⟩ (.emit (by simp [Inst.encode, hw]) ⟨⟨?_, rfl, by simp⟩, ?_⟩)
    · exact Scratch.release_reserve hfree
    · intro s u hu
      have hne : dst ≠ tmp := Scratch.ne_of_free htmp hfree (.inl huse)
      obtain ⟨t, ht, hflags, hguest, hregs⟩ := Host.State.alu_setReg hu tmp v
      refine ⟨t, ?_, .of_others htmp hfree hregs, hflags, hguest⟩
      rw [Meaning.andThen_of_fell (does_movImm ..)]
      refine does_of_step ?_ (by simp)
      simpa [Inst.step, hne] using ht

/-! ## Leaving the block -/

/-- The host state `u` is the state `s` after leaving the block with an exit and a guest state. -/
structure Left (kind : Exit) (param : Word) (g : Guest.State) (s u : State) : Prop where
  kind : u.reg .rax = kind.number
  param : u.reg .rdx = param
  guest : u.guest = g
  stack : u.reg .rsp = s.reg .rsp + 8
  held : ∀ r, r ∉ Scratch.pool → r ≠ .rsp → u.reg r = s.reg r

/-- Leaving a block from a later state is leaving it from the earlier one, if code in between has
only changed free registers. -/
theorem Left.of_held {kind : Exit} {param : Word} {g : Guest.State} {sc : Scratch} {s t u : State}
    (h : Left kind param g t u) (hheld : Held sc s t) : Left kind param g s u where
  kind := h.kind
  param := h.param
  guest := h.guest
  stack := by rw [h.stack, hheld .rsp (.inr (by decide))]
  held r hr hne := by rw [h.held r hr hne, hheld r (.inr hr)]

/-- Registers outside the pool are none of the two that an exit is returned in. -/
theorem ne_of_not_mem_pool {r : Reg} (h : r ∉ Scratch.pool) : r ≠ .rax ∧ r ≠ .rdx := by
  revert r
  decide

/-- **Leaving a block** returns with the exit and its parameter and leaves the guest as it is. It
cannot fail. -/
theorem exit_lowers (kind : Exit) (param : Word) (e : Emission) (X : Failure → Prop) :
    Lowers (exit kind param) e
      (fun _ e' w => Adds 3 e.scratch e e' ∧ ∀ s, ∃ u, w s = .returned u ∧
        Left kind param s.guest s u) X := by
  refine .emit_bind ⟨_, rfl⟩ (.emit_bind ⟨_, rfl⟩ (.emit ⟨_, rfl⟩ ⟨⟨rfl, rfl, by simp⟩, ?_⟩))
  intro s
  refine ⟨_, rfl, by simp +decide, by simp +decide, rfl, by simp +decide, fun r hr hne => ?_⟩
  simp [hne, ne_of_not_mem_pool hr]

/-- **Leaving a block with a register as parameter.** If the parameter is where it belongs
already, it is not moved. -/
theorem exitWith_lowers (kind : Exit) (src : Reg) (e : Emission) (X : Failure → Prop) :
    Lowers (exitWith kind src) e
      (fun _ e' w => Adds 3 e.scratch e e' ∧ ∀ s, ∃ u, w s = .returned u ∧
        Left kind (s.reg src) s.guest s u) X := by
  unfold exitWith
  split
  · refine .emit_bind ⟨_, rfl⟩ (.emit_bind ⟨_, rfl⟩ (.emit ⟨_, rfl⟩ ⟨⟨rfl, rfl, by simp⟩, ?_⟩))
    intro s
    refine ⟨_, rfl, by simp +decide, by simp +decide, rfl, by simp +decide, fun r hr hne => ?_⟩
    simp [hne, ne_of_not_mem_pool hr]
  · rename_i hsrc
    obtain rfl : src = .rdx := by simpa using hsrc
    refine .emit_bind ⟨_, rfl⟩ (.emit ⟨_, rfl⟩ ⟨⟨rfl, rfl, by simp⟩, fun s => ?_⟩)
    refine ⟨_, rfl, by simp +decide, by simp +decide, rfl, by simp +decide, fun r hr hne => ?_⟩
    simp [hne, ne_of_not_mem_pool hr]

end Lower

end Dynarec
