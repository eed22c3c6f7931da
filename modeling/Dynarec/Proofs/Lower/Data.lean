import Dynarec.Lower.Data
import Dynarec.Proofs.Lower.Arithmetic

/-!
# Data processing code

The code of sums and logical operations does to the guest what the instruction does. Each emitter is
put together from the code that reads registers, applies one host operation, and writes the result
back.

## Main definitions

* `Dynarec.Lower.Shows` — the host did what an effect says.
* `Dynarec.Lower.Realizes` — an action lowers an instruction.

## Main results

* `Dynarec.Lower.sum_realizes`, `Dynarec.Lower.logical_realizes` — three-operand operations.
-/

set_option autoImplicit false

namespace Dynarec.Lower

open Host (Reg Inst State AluOp)
open Code (Walked walk)
open Guest (Operand Register Instruction Immediate bits addOrSub)

/-! ## Showing an effect -/

/-- What walking through code from `s` came to shows the effect of an instruction: code falls out of
its end when the guest goes on, and leaves the block otherwise. Registers outside the pool are
untouched, but for the return address that leaving pops. -/
inductive Shows (s : State) : Walked → Guest.Effect → Prop where
  | next {t : State} (h : Held {} s t) : Shows s (.fell t) (.next t.guest)
  | jump {u : State} {distance : Word} {g : Guest.State} (h : Left .branch distance g s u) :
      Shows s (.returned u) (.jump distance g)
  | halt {u : State} {g : Guest.State} (h : Left .halt 0 g s u) : Shows s (.returned u) (.halt g)
  | fault {u : State} {address : Word} {g : Guest.State} (h : Left .fault address g s u) :
      Shows s (.returned u) (.fault address g)

/-- The action lowers an instruction at an address. If it succeeds then the instruction has an
effect, which its code shows for host states in `pre`, and the block goes on unless the instruction
ends it; it fails only for registers that are not mapped or for want of scratch registers. -/
def Realizes (act : Emit Unit) (pc : Word) (inst : Instruction) (pre : State → Prop) : Prop :=
  ∀ e : Emission, Lowers act e
    (fun _ e' w => e'.goesOn = (!inst.op.endsLine || e.goesOn) ∧ ∀ s,
      ∃ effect, s.guest.step pc inst = some effect ∧ (pre s → Shows s (w s) effect))
    (Refused inst.named 7 e.scratch)

/-- States that agree on the registers in use agree on those outside the pool. -/
theorem Held.empty {sc : Scratch} {s t : State} (h : Held sc s t) : Held {} s t :=
  h.mono fun r hr => by simp [Scratch.inUse] at hr

/-- Replacing a register of the pool keeps the registers outside the pool. -/
theorem Held.of_setReg {r : Reg} (hr : r ∈ Scratch.pool) (s : State) (v : Word) :
    Held {} s (s.setReg r v) :=
  (Held.refl {} s).setReg hr (by simp [Scratch.inUse]) v

/-! ## Applying an operation -/

/-- The state `t` is `s` after an operation on a register and a value. The flags before it only
matter as far as the operation leaves some of them alone. -/
def Applied (op : AluOp) (width : Int) (dst : Reg) (y : BitVec (bits width)) (s t : State) : Prop :=
  ∃ f result, op.apply f ((s.reg dst).setWidth (bits width)) y = some (result, t.flags) ∧
    t.reg dst = (result.map fun r => r.setWidth 64).getD (s.reg dst)

/-- Code applies an operation to a register and the value of an operand. It may take one more
scratch register and keep it. -/
structure Applies (op : AluOp) (width : Int) (dst : Reg) (src : Operand) (e e' : Emission)
    (w : Meaning) : Prop where
  goesOn : e'.goesOn = e.goesOn
  length : e'.code.length ≤ e.code.length + 4
  inUse : ∀ r, e.scratch.inUse r = true → e'.scratch.inUse r = true
  free : e.scratch.free ≤ e'.scratch.free + 1
  run : ∀ s, ∃ y t, s.guest.source (bits width) src = some y ∧ w s = .fell t ∧
    Held (e.scratch.release dst) s t ∧ t.guest = s.guest ∧ Applied op width dst y s t

/-- The operations in use. -/
def IsKnown (op : AluOp) : Prop :=
  ∀ c, op ≠ .other c

/-- Operations other than compares have a result. -/
theorem exists_result {op : AluOp} (hcmp : op ≠ .cmp) {w : Nat} {f f' : Host.Flags}
    {x y : BitVec w} {result : Option (BitVec w)} (h : op.apply f x y = some (result, f')) :
    ∃ r, result = some r := by
  cases op with
  | cmp => exact absurd rfl hcmp
  | other c => cases h
  | _ => cases h; exact ⟨_, rfl⟩

/-- An operation in use gives a state where it is applied. -/
theorem exists_alu {op : AluOp} (hop : IsKnown op) {width : Int} (hw : Host.isWidth width)
    (s : State) (dst : Reg) (y : Word) :
    ∃ u, s.alu op width dst (s.reg dst) y = some u ∧ u.guest = s.guest ∧
      (∀ q, q ≠ dst → u.reg q = s.reg q) ∧ Applied op width dst (y.setWidth _) s u := by
  rcases happly :
    op.apply s.flags ((s.reg dst).setWidth (bits width)) (y.setWidth (bits width)) with
    _ | ⟨_ | r, f⟩
  · cases op <;> simp [AluOp.apply] at happly
    exact absurd rfl (hop _)
  · obtain rfl : op = .cmp := by
      cases op <;> simp [AluOp.apply] at happly
      rfl
    refine ⟨_, Host.State.alu_cmp hw, rfl, fun _ _ => rfl, s.flags, none, rfl, rfl⟩
  · refine ⟨_, Host.State.alu_of_apply hw happly, rfl, fun q hq => by simp [hq], s.flags, some r,
      happly, by simp⟩

/-- Applying an operation to an immediate that has an immediate form. -/
theorem aluImm_applies {op : AluOp} (hop : IsKnown op) {width : Int} (hw : Host.isWidth width)
    (dst : Reg) (hdst : dst ∈ Scratch.pool) {v : Word} (hfits : fitsInt32 v.toInt) {src : Operand}
    (hsrc : ∀ s : Guest.State, s.source (bits width) src = some (v.setWidth _)) (e : Emission)
    (X : Failure → Prop) :
    Lowers (emit (.aluImm op width dst v)) e (fun _ e' w => Applies op width dst src e e' w) X := by
  refine .emit (by simp [Inst.encode, hw, hfits]) ?_
  refine ⟨rfl, by simp, fun r hr => hr, by simp, fun s => ?_⟩
  obtain ⟨u, hu, hguest, hothers, happ⟩ := exists_alu hop hw s dst v
  exact ⟨_, u, hsrc s.guest, does_of_step hu (by simp), .of_others hdst (by simp) hothers, hguest,
    happ⟩

/-- Applying an operation to a constant.

**Proof sketch.** The constant is in the instruction or in a scratch register of its own
(`aluConst_lowers`), and the operation is applied to the two values (`exists_alu`). -/
theorem aluConst_applies {op : AluOp} (hop : IsKnown op) {width : Int} (hw : Host.isWidth width)
    (dst : Reg) (hdst : dst ∈ Scratch.pool) (v : Word) {src : Operand}
    (hsrc : ∀ s : Guest.State, s.source (bits width) src = some (v.setWidth _)) (e : Emission)
    (huse : e.scratch.inUse dst) :
    Lowers (aluConst op width dst v) e (fun _ e' w => Applies op width dst src e e' w)
      (Refused [] 1 e.scratch) := by
  refine (aluConst_lowers op dst v hw e huse).mono ?_ fun f hf => hf
  rintro _ e' w ⟨hadds, hrun⟩
  refine ⟨hadds.goesOn, ?_, fun r hr => by rw [hadds.scratch, hr], by rw [hadds.scratch]; omega, ?_⟩
  · have := hadds.length
    omega
  · intro s
    obtain ⟨u, hu, hguest, hothers, f, result, happly, hvalue⟩ := exists_alu hop hw s dst v
    obtain ⟨t, ht, hheld, hflags, hguest'⟩ := hrun s u hu
    refine ⟨_, t, hsrc s.guest, ht, ?_, hguest'.trans hguest, f, result, ?_, ?_⟩
    · exact (Held.of_others hdst (by simp) hothers).trans (hheld.release dst)
    · rw [hflags, happly]
    · rw [hheld dst (.inl huse), hvalue]

/-- Applying an operation to a register that was read before.

**Proof sketch.** The register that the operand was read into is another one than the
destination, which so still has the first operand when the operation is applied. -/
theorem alu_applies {op : AluOp} (hop : IsKnown op) {width : Int} (hw : Host.isWidth width)
    {dst : Reg} (hdst : dst ∈ Scratch.pool) {read : Emit Reg} {src : Operand} (e : Emission)
    (huse : e.scratch.inUse dst) {X : Failure → Prop}
    (hread : Lowers read e (fun h e' w => h ∈ Scratch.pool ∧ e.scratch.inUse h = false ∧
      Adds 3 (e.scratch.reserve h) e e' ∧ ∀ s, ∃ t, w s = .fell t ∧ Held e.scratch s t ∧
        t.guest = s.guest ∧ s.guest.source (bits width) src = some ((t.reg h).setWidth _)) X) :
    Lowers (do let h ← read; emit (.alu op width dst h)) e
      (fun _ e' w => Applies op width dst src e e' w) X := by
  refine .bind hread ?_
  rintro h e₁ w₁ ⟨hh, hfree, hadds, hrun⟩
  refine .emit (by simp [Inst.encode, hw]) ?_
  have hadds' := hadds.trans (Adds.emit e₁ (.alu op width dst h))
  refine ⟨hadds'.goesOn, hadds'.length, fun r hr => ?_, ?_, fun s => ?_⟩
  · simp [hadds.scratch, hr]
  · have := e.scratch.free_le_reserve h
    simpa [hadds.scratch] using this
  · obtain ⟨t, ht, hheld, hguest, hsrc⟩ := hrun s
    obtain ⟨u, hu, hguest', hothers, happ⟩ := exists_alu hop hw t dst (t.reg h)
    refine ⟨_, u, hsrc, ?_, ?_, hguest'.trans hguest, ?_⟩
    · rw [Meaning.andThen_of_fell ht]
      exact does_of_step hu (by simp)
    · exact (hheld.release dst).trans (.of_others hdst (by simp) hothers)
    · unfold Applied at happ ⊢
      rwa [hheld dst (.inl huse)] at happ

/-- The operands that data processing code accepts at a width. -/
def Accepts (width : Int) : Operand → Prop
  | .imm _ | .reg _ => True
  | .shifted r _ amount => r.width = width ∧ (amount : Int) < width
  | _ => False

/-- Applies an operation to a register and an operand, with code of its own for constants. -/
def operate (op : AluOp) (width : Int) (dst : Reg) (constant : Word → Emit Unit)
    (unsupported : Emit Unit) : Operand → Emit Unit
  | .imm v => constant v.shifted
  | .reg r => do
    let src ← readRegister r
    emit (.alu op width dst src)
  | .shifted r kind amount => do
    let src ← readShifted r kind amount
    emit (.alu op width dst src)
  | _ => unsupported

/-- Operating on a register with a last operand applies the operation to the value of the
operand. For constants it is assumed, as instructions have different code for them.

**Proof sketch.** By the kind of the last operand: a constant is the assumption, and a
register is read first, shifted or not (`readRegister_lowers`, `readShifted_lowers`). -/
theorem operate_applies {op : AluOp} (hop : IsKnown op) {width : Int} (hw : Host.isWidth width)
    {dst : Reg} (hdst : dst ∈ Scratch.pool) {constant : Word → Emit Unit} {unsupported : Emit Unit}
    {src : Operand} (hsrc : Accepts width src) (e : Emission) (huse : e.scratch.inUse dst)
    (hconst : ∀ i, src = .imm i → Lowers (constant i.shifted) e
      (fun _ e' w => Applies op width dst (.imm i) e e' w) (Refused [] 1 e.scratch)) :
    Lowers (operate op width dst constant unsupported src) e
      (fun _ e' w => Applies op width dst src e e' w) (Refused src.registers 1 e.scratch) := by
  cases src with
  | imm i => exact hconst i rfl
  | reg r =>
    refine alu_applies hop hw hdst e huse ((readRegister_lowers r e).mono ?_ fun f hf => hf)
    rintro h e' w ⟨hh, hfree, hadds, hrun⟩
    refine ⟨hh, hfree, hadds.mono (by omega), fun s => ?_⟩
    obtain ⟨t, ht, hheld, hguest, hval⟩ := hrun s
    exact ⟨t, ht, hheld, hguest, by simp [Guest.State.source, hval]⟩
  | shifted r kind amount =>
    obtain ⟨rfl, hamount⟩ := hsrc
    exact alu_applies hop hw hdst e huse (readShifted_lowers r kind amount hw hamount e)
  | cond | label | mem | absent => cases hsrc

/-! ## Sums and logical operations -/

/-- Applies an operation to a register and an operand and writes the result to a register. With
flags, the accumulator is kept free for collecting them. -/
def combine (rd rn : Register) (src : Operand) (op : AluOp) (constant : Reg → Word → Emit Unit)
    (unsupported : Emit Unit) (flags : Option Carry) : Emit Unit := do
  goOn
  (if flags.isSome then reserve .rax else pure ())
  let dst ← readRegister rn
  operate op rd.width dst (constant dst) unsupported src
  writeRegister rd dst
  match flags with
  | some carry => updateFlags carry
  | none => pure ()

/-- The code of a sum or difference, for operands of the right kinds. -/
theorem sum_eq (o : Guest.Op) (rd rn : Register) (src : Operand) (op : AluOp) (flags : Bool) :
    sum { op := o, operands := [.reg rd, .reg rn, src] } op flags =
      combine rd rn src op (fun dst v => emit (.aluImm op rd.width dst v))
        (.fail .decode (.operandUnsupported o src))
        (if flags then some (if op = .sub then .fromSub else .fromAdd) else none) := by
  unfold sum combine
  cases flags <;> cases src <;> simp [wantOperands, registerAt, operandAt, operate]

/-- The code of a logical operation, for operands of the right kinds. -/
theorem logical_eq (o : Guest.Op) (rd rn : Register) (src : Operand) (op : AluOp) (flags : Bool) :
    logical { op := o, operands := [.reg rd, .reg rn, src] } op flags =
      combine rd rn src op (fun dst v => aluConst op rd.width dst v)
        (.fail .decode (.operandUnsupported o src)) (if flags then some .fromAdd else none) := by
  unfold logical combine
  cases flags <;> cases src <;> simp [wantOperands, registerAt, operandAt, operate]

/-- Writing a result and, if asked for, the flags of the operation that gave it.

**Proof sketch.** Writing the result keeps the flags of the host, so those that are stored
afterwards are the ones of the operation. -/
theorem writeBack_lowers (rd : Register) (hw : Host.isWidth rd.width) {dst : Reg}
    (hdst : dst ∈ Scratch.pool) (flags : Option Carry) (e : Emission) (huse : e.scratch.inUse dst) :
    Lowers (do
        writeRegister rd dst
        match flags with
        | some carry => updateFlags carry
        | none => pure ()) e
      (fun _ e' w => e'.goesOn = e.goesOn ∧ ∀ s, ∃ g t,
        s.guest.write rd (((s.reg dst).setWidth (bits rd.width)).setWidth 64) = some g ∧
          w s = .fell t ∧ Held {} s t ∧
            t.guest = flags.elim g fun carry => g.setFlags (carry.guest s.flags))
      (Refused [rd] 3 e.scratch) := by
  refine .bind ((writeRegister_lowers rd dst hw hdst e huse).mono (fun _ _ _ => id)
    fun f hf => hf.mono (by simp) (by omega)) ?_
  rintro _ e₁ w₁ ⟨hadds, hwrite⟩
  cases flags with
  | none =>
    refine .pure ⟨hadds.goesOn, fun s => ?_⟩
    obtain ⟨t, ht, hheld, -, hguest⟩ := hwrite s
    exact ⟨_, t, hguest, by simpa using ht, hheld.empty, rfl⟩
  | some carry =>
    refine (updateFlags_lowers carry e₁).mono ?_ fun f hf => hf.lift (by simp) ?_
    · rintro _ e₂ w₂ ⟨hadds₂, hupdate⟩
      refine ⟨hadds₂.goesOn.trans hadds.goesOn, fun s => ?_⟩
      obtain ⟨t, ht, hheld, hflags, hguest⟩ := hwrite s
      obtain ⟨u, hu, hheld', hguest'⟩ := hupdate t
      refine ⟨_, u, hguest, ?_, hheld.empty.trans hheld'.empty, ?_⟩
      · rw [Meaning.andThen_of_fell ht, hu]
      · rw [hguest', hflags]
        rfl
    · rw [hadds.scratch]
      exact id

/-- The emission with the accumulator marked as in use, if asked for. -/
def Emission.reserveIf (e : Emission) (b : Bool) : Emission :=
  if b then e.reserve .rax else e

namespace Emission

variable (e : Emission) (b : Bool)

/-- Marking the accumulator as in use says nothing about whether the line goes on. -/
@[simp] theorem goesOn_reserveIf : (e.reserveIf b).goesOn = e.goesOn := by
  cases b <;> rfl

/-- Marking the accumulator as in use takes at most one register away. -/
theorem free_le_reserveIf : e.scratch.free ≤ (e.reserveIf b).scratch.free + 1 := by
  cases b with
  | false => exact Nat.le_succ _
  | true => exact e.scratch.free_le_reserve .rax

end Emission

/-- Marking the accumulator as in use, if asked for, and going on. -/
theorem Lowers.reserveIf_bind {α : Type} {e : Emission} {k : Unit → Emit α} {b : Bool}
    {R : α → Emission → Meaning → Prop} {X : Failure → Prop}
    (h : Lowers (k ()) (e.reserveIf b) R X) :
    Lowers ((if b then reserve .rax else Pure.pure ()) >>= k) e R X := by
  cases b with
  | false => exact h
  | true => exact .reserve_bind h

/-- The emission of an instruction that goes on. -/
def Emission.goOn (e : Emission) : Emission :=
  { e with goesOn := true }

/-- Saying that the line goes on leaves the registers in use as they are. -/
@[simp] theorem Emission.scratch_goOn (e : Emission) : e.goOn.scratch = e.scratch := rfl

/-- After saying so, the line goes on. -/
@[simp] theorem Emission.goesOn_goOn (e : Emission) : e.goOn.goesOn = true := rfl

/-- Saying that the line goes on adds no code. -/
theorem Lowers.goOn_bind {α : Type} {e : Emission} {k : Unit → Emit α}
    {R : α → Emission → Meaning → Prop} {X : Failure → Prop} (h : Lowers (k ()) e.goOn R X) :
    Lowers (goOn >>= k) e R X :=
  .update_bind rfl h

/-- **Applying an operation** reads the operands, writes the result and sets the flags.

**Proof sketch.** Step by step through the code: the accumulator is reserved if flags are
set, the first operand is read, the operation is applied to the last, and the result is written
back with the flags. Each step keeps what the ones before have left, and the pieces and scratch
registers add up. -/
theorem combine_lowers {rd : Register} (rn : Register) {src : Operand} {op : AluOp}
    (hop : IsKnown op) (hcmp : op ≠ .cmp) (hw : Host.isWidth rd.width)
    (hsrc : Accepts rd.width src) {constant : Reg → Word → Emit Unit} {unsupported : Emit Unit}
    (hconst : ∀ dst ∈ Scratch.pool, ∀ e : Emission, e.scratch.inUse dst → ∀ i, src = .imm i →
      Lowers (constant dst i.shifted) e (fun _ e' w => Applies op rd.width dst (.imm i) e e' w)
        (Refused [] 1 e.scratch))
    (flags : Option Carry) (e : Emission) :
    Lowers (combine rd rn src op constant unsupported flags) e
      (fun _ e' w => e'.goesOn = true ∧ ∀ s, ∃ x y r f f' g t,
        s.guest.read rn = some x ∧ s.guest.source (bits rd.width) src = some y ∧
          op.apply f (x.setWidth _) y = some (some r, f') ∧
          s.guest.write rd (r.setWidth 64) = some g ∧ w s = .fell t ∧ Held {} s t ∧
            t.guest = flags.elim g fun carry => g.setFlags (carry.guest f'))
      (Refused ([rd, rn] ++ src.registers) 6 e.scratch) := by
  refine .goOn_bind (.reserveIf_bind ?_)
  have hfree := e.goOn.free_le_reserveIf flags.isSome
  rw [Emission.scratch_goOn] at hfree
  generalize he₀ : e.goOn.reserveIf flags.isSome = e₀ at hfree ⊢
  refine .bind ((readRegister_lowers rn e₀).mono (fun _ _ _ => id)
    fun f hf => hf.lift (by simp) (by omega)) ?_
  rintro dst e₁ w₁ ⟨hdst, hdstfree, hadds₁, hread⟩
  have huse₁ : e₁.scratch.inUse dst := by simp [hadds₁.scratch]
  have hfree₁ : e₀.scratch.free ≤ e₁.scratch.free + 1 := by
    rw [hadds₁.scratch]
    exact e₀.scratch.free_le_reserve dst
  refine .bind ((operate_applies hop hw hdst hsrc e₁ huse₁ (hconst dst hdst e₁ huse₁)).mono
    (fun _ _ _ => id) fun f hf => hf.lift (fun r hr => by simp [hr]) (by omega)) ?_
  intro _ e₂ w₂ happlies
  have hfree₂ := happlies.free
  refine (writeBack_lowers rd hw hdst flags e₂ (happlies.inUse dst huse₁)).mono ?_
    fun f hf => hf.lift (by simp) (by omega)
  rintro _ e₃ w₃ ⟨hgoes, hback⟩
  refine ⟨?_, fun s => ?_⟩
  · rw [hgoes, happlies.goesOn, hadds₁.goesOn, ← he₀]
    simp
  · obtain ⟨s₁, h₁, hheld₁, hguest₁, hx⟩ := hread s
    obtain ⟨y, s₂, hy, h₂, hheld₂, hguest₂, f, result, happly, hvalue⟩ := happlies.run s₁
    obtain ⟨g, t, hg, ht, hheld₃, hguest₃⟩ := hback s₂
    obtain ⟨r, rfl⟩ := exists_result hcmp happly
    refine ⟨s₁.reg dst, y, r, f, s₂.flags, g, t, hx, ?_, happly, ?_, ?_, ?_, hguest₃⟩
    · rwa [hguest₁] at hy
    · rw [hguest₂, hguest₁, hvalue] at hg
      simpa using hg
    · rw [Meaning.andThen_of_fell h₁, Meaning.andThen_of_fell h₂, ht]
    · exact hheld₁.empty.trans (hheld₂.empty.trans hheld₃)

/-- The last operand of a sum or a compare is acceptable. -/
theorem accepts_of_addend {width : Int} {src : Operand} (h : Guest.Addend width src) :
    Accepts width src := by
  cases h with
  | imm h => trivial
  | shifted hw ha => exact ⟨hw, ha⟩

/-- The last operand of a logical operation is acceptable. -/
theorem accepts_of_mask {width : Int} {src : Operand} (h : Guest.Mask width src) :
    Accepts width src := by
  cases h with
  | imm => trivial
  | shifted hw ha => exact ⟨hw, ha⟩

/-- A small number fits into an instruction. -/
theorem fitsInt32_of_small {v : Word} (h : v.toNat < 0x1000000) : fitsInt32 v.toInt := by
  have hv := v.toInt_eq_toNat_cond
  simp only [fitsInt32, decide_eq_true_eq]
  omega

/-- The negation of a small number fits into an instruction. -/
theorem fitsInt32_neg {v : Word} (h : v.toNat < 0x1000000) : fitsInt32 (-v).toInt := by
  have hv := v.toInt_eq_toNat_cond
  rw [BitVec.toInt_neg, Int.bmod_def]
  simp only [fitsInt32, decide_eq_true_eq]
  omega

/-- An instruction that is no return uses the registers of its operands. -/
theorem named_of_ne {o : Guest.Op} {operands : List Operand} (h : o ≠ .ret) :
    ({ op := o, operands := operands } : Instruction).named =
      operands.flatMap Operand.registers := by
  simp [Instruction.named, h]

/-- **Sums** are lowered as they are meant.

**Proof sketch.** The code applies the operation and writes its result and flags
(`combine_lowers`), which are those of the guest's sum (`addOrSub_of_apply`). -/
theorem sum_realizes {o : Guest.Op} {rd rn : Register} {src : Operand} {pc : Word}
    (hw : Host.isWidth rd.width) (hsrc : Guest.Addend rd.width src) (sub flags : Bool)
    (hstep : ∀ s : Guest.State, s.step pc { op := o, operands := [.reg rd, .reg rn, src] } =
      s.sum rd rn src sub flags) (hends : o.endsLine = false) :
    Realizes
      (sum { op := o, operands := [.reg rd, .reg rn, src] } (if sub then .sub else .add) flags)
      pc { op := o, operands := [.reg rd, .reg rn, src] } fun _ => True := by
  intro e
  rw [sum_eq, named_of_ne (by rintro rfl; cases hends)]
  have hop : IsKnown (if sub then .sub else .add) := by cases sub <;> intro c <;> simp
  have hcmp : (if sub then AluOp.sub else .add) ≠ .cmp := by cases sub <;> simp
  refine (combine_lowers rn hop hcmp hw (accepts_of_addend hsrc) ?_ _ e).mono ?_
    fun f hf => hf.mono (by simp) (by omega)
  · rintro dst hdst e huse i rfl
    cases hsrc with
    | imm hi => exact aluImm_applies hop hw dst hdst (fitsInt32_of_small hi) (fun s => rfl) e _
  · rintro _ e' w ⟨hgoes, hrun⟩
    refine ⟨by simp [hgoes, hends], fun s => ?_⟩
    obtain ⟨x, y, r, f, f', g, t, hx, hy, happly, hwrite, ht, hheld, hguest⟩ := hrun s
    refine ⟨.next t.guest, ?_, fun _ => ht ▸ .next hheld⟩
    have hsum := addOrSub_of_apply (Guest.bits_cases rd.width) happly
    rw [hstep, Guest.State.sum, hguest]
    cases sub <;> cases flags <;> simp_all

/-- **Bitwise operations** are lowered as they are meant.

**Proof sketch.** The code applies the operation and writes its result and flags
(`combine_lowers`). The host clears carry and overflow of a bitwise result, as the guest does. -/
theorem logical_realizes {o : Guest.Op} {rd rn : Register} {src : Operand} {pc : Word}
    (hw : Host.isWidth rd.width) (hsrc : Guest.Mask rd.width src) {op : AluOp}
    (bitwise : Guest.Bitwise) (flags : Bool)
    (hop : ∀ (w : Nat) (f : Host.Flags) (x y : BitVec w), op.apply f x y =
      some (some (bitwise.apply x y), f.ofLogic (bitwise.apply x y)))
    (hstep : ∀ s : Guest.State, s.step pc { op := o, operands := [.reg rd, .reg rn, src] } =
      s.logical rd rn src bitwise flags) (hends : o.endsLine = false) :
    Realizes (logical { op := o, operands := [.reg rd, .reg rn, src] } op flags)
      pc { op := o, operands := [.reg rd, .reg rn, src] } fun _ => True := by
  intro e
  rw [logical_eq, named_of_ne (by rintro rfl; cases hends)]
  have hknown : IsKnown op := by
    rintro c rfl
    cases hop 0 {} 0 0
  have hcmp : op ≠ .cmp := by
    rintro rfl
    cases hop 0 {} 0 0
  refine (combine_lowers rn hknown hcmp hw (accepts_of_mask hsrc) ?_ _ e).mono ?_
    fun f hf => hf.mono (by simp) (by omega)
  · rintro dst hdst e huse i rfl
    exact aluConst_applies hknown hw dst hdst i.shifted (fun s => rfl) e huse
  · rintro _ e' w ⟨hgoes, hrun⟩
    refine ⟨by simp [hgoes, hends], fun s => ?_⟩
    obtain ⟨x, y, r, f, f', g, t, hx, hy, happly, hwrite, ht, hheld, hguest⟩ := hrun s
    refine ⟨.next t.guest, ?_, fun _ => ht ▸ .next hheld⟩
    rw [hop] at happly
    cases happly
    rw [hstep, Guest.State.logical, hguest]
    -- the host clears carry and overflow of a bitwise result, as the guest does
    have hflags : ∀ {w : Nat} (v : BitVec w),
        Carry.fromAdd.guest (f.ofLogic v) = Guest.logicalFlags v := fun _ => rfl
    cases flags <;> simp [hx, hy, hwrite, hflags]

end Dynarec.Lower
