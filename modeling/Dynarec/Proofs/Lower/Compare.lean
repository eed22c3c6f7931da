import Dynarec.Proofs.Lower.Data

/-!
# Compare code

The code of compares sets the guest flags of a difference or a sum, and the code of conditional
compares sets them so when the condition holds, and to a constant otherwise. Adding a constant other
than zero is done by subtracting its negation.

## Main definitions

* `Dynarec.Lower.comparison` — the host operation that stands for a compare.

## Main results

* `Dynarec.Lower.compare_realizes`, `Dynarec.Lower.condCompare_realizes` — compares are lowered as
  they are meant.
-/

set_option autoImplicit false

namespace Dynarec.Lower

open Host (Reg Inst State AluOp)
open Code (Walked walk)
open Guest (Operand Register Instruction Immediate bits)

/-! ## Compares -/

/-- Sets the flags of an operation on a register and an operand. -/
def compareBy (rn : Register) (src : Operand) (op : AluOp) (carry : Carry)
    (unsupported : Emit Unit) : Emit Unit := do
  reserve .rax
  let lhs ← readRegister rn
  operate op rn.width lhs (fun v => emit (.aluImm op rn.width lhs v)) unsupported src
  updateFlags carry

/-- **Setting the flags** of an operation reads the operands and changes nothing but the flags.

**Proof sketch.** Step by step through the code: the accumulator is reserved, the first
operand is read, the operation is applied to the second, and the flags are packed and stored.
Each step keeps what the ones before have left, and the pieces and scratch registers add up. -/
theorem compareBy_lowers (rn : Register) {src : Operand} {op : AluOp} (hop : IsKnown op)
    (hw : Host.isWidth rn.width) (hsrc : Accepts rn.width src)
    (himm : ∀ i, src = .imm i → fitsInt32 i.shifted.toInt) (carry : Carry)
    (unsupported : Emit Unit) (e : Emission) :
    Lowers (compareBy rn src op carry unsupported) e
      (fun _ e' w => e'.goesOn = e.goesOn ∧ e'.code.length ≤ e.code.length + 23 ∧
        e.scratch.free ≤ e'.scratch.free + 4 ∧ ∀ s, ∃ x y f result f' t,
          s.guest.read rn = some x ∧ s.guest.source (bits rn.width) src = some y ∧
            op.apply f (x.setWidth _) y = some (result, f') ∧ w s = .fell t ∧ Held {} s t ∧
              t.guest = s.guest.setFlags (carry.guest f'))
      (Refused (rn :: src.registers) 6 e.scratch) := by
  refine .reserve_bind ?_
  have hfree := e.scratch.free_le_reserve .rax
  refine .bind ((readRegister_lowers rn (e.reserve .rax)).mono (fun _ _ _ => id)
    fun f hf => hf.reserve.mono (by simp) (by omega)) ?_
  rintro lhs e₁ w₁ ⟨hlhs, -, hadds₁, hread⟩
  have huse₁ : e₁.scratch.inUse lhs := by simp [hadds₁.scratch]
  have hfree₁ : (e.scratch.reserve .rax).free ≤ e₁.scratch.free + 1 := by
    rw [hadds₁.scratch]
    exact Scratch.free_le_reserve _ lhs
  have hconst : ∀ i, src = .imm i → Lowers (emit (.aluImm op rn.width lhs i.shifted)) e₁
      (fun _ e' w => Applies op rn.width lhs (.imm i) e₁ e' w) (Refused [] 1 e₁.scratch) :=
    fun i hi => aluImm_applies hop hw lhs hlhs (himm i hi) (fun s => rfl) e₁ _
  refine .bind ((operate_applies hop hw hlhs hsrc e₁ huse₁ hconst).mono
    (fun _ _ _ => id) fun f hf => hf.lift (fun r hr => by simp [hr]) (by omega)) ?_
  intro _ e₂ w₂ happlies
  have hfree₂ := happlies.free
  refine (updateFlags_lowers carry e₂).mono ?_ fun f hf => hf.lift (by simp) (by omega)
  rintro _ e₃ w₃ ⟨hadds₃, hupdate⟩
  have hfree₃ : e₂.scratch.free ≤ e₃.scratch.free + 1 := by
    rw [hadds₃.scratch]
    exact Scratch.free_le_reserve _ _
  refine ⟨?_, ?_, ?_, fun s => ?_⟩
  · rw [hadds₃.goesOn, happlies.goesOn, hadds₁.goesOn]
    rfl
  · have h₁ := hadds₁.length
    have h₂ := happlies.length
    have h₃ := hadds₃.length
    rw [Emission.code_reserve] at h₁
    omega
  · omega
  · obtain ⟨s₁, h₁, hheld₁, hguest₁, hx⟩ := hread s
    obtain ⟨y, s₂, hy, h₂, hheld₂, hguest₂, f, result, happly, -⟩ := happlies.run s₁
    obtain ⟨t, ht, hheld₃, hguest₃⟩ := hupdate s₂
    refine ⟨s₁.reg lhs, y, f, result, s₂.flags, t, hx, ?_, happly, ?_, ?_, ?_⟩
    · rwa [hguest₁] at hy
    · rw [Meaning.andThen_of_fell h₁, Meaning.andThen_of_fell h₂, ht]
    · exact hheld₁.empty.trans (hheld₂.empty.trans hheld₃.empty)
    · rw [hguest₃, hguest₂, hguest₁]

/-- The operation, the carry and the operand of a compare: adding a constant other than zero is
done by subtracting its negation. -/
def comparison (src : Operand) (negated : Bool) : AluOp × Carry × Operand :=
  if negated then
    match src with
    | .imm v =>
      if v.shifted = 0 then (.add, .fromAdd, src)
      else (.sub, .fromSub, .imm { value := -v.shifted, shift := 0 })
    | _ => (.add, .fromAdd, src)
  else (.cmp, .fromSub, src)

/-- An immediate without a shift is its own value. -/
@[simp] theorem shifted_unshifted (v : Word) : ({ value := v } : Immediate).shifted = v :=
  BitVec.shiftLeft_zero v

/-- The compare that compares and conditional compares share, as one operation with the
operation, the carry and the operand it takes.

**Proof sketch.** By the kind of the last operand, and for immediates by whether they are
zero. -/
theorem compareWith_eq (rn : Register) {width : Int} {src : Operand} (hsrc : Accepts width src)
    (negated : Bool) :
    compareWith rn src negated =
      compareBy rn (comparison src negated).2.2 (comparison src negated).1
        (comparison src negated).2.1 (pure ()) := by
  unfold compareWith compareBy comparison
  cases src with
  | imm i =>
    cases negated with
    | false => simp [operate]
    | true =>
      by_cases hzero : i.shifted = 0
      · simp [hzero, operate]
      · have hif : ¬ i.shifted = 0#64 := hzero
        simp [hif, operate]
  | reg r | shifted r kind amount =>
    cases negated <;> simp [compareWith.compareRegisters, operate]
  | cond | label | mem | absent => cases hsrc

/-- What is compared: a small constant, or a register. -/
structure Compares (width : Int) (src : Operand) : Prop where
  accepts : Accepts width src
  small : ∀ i, src = .imm i → i.shifted.toNat < 0x1000000

/-- The operation that a compare comes down to is a known one, its operand is acceptable, an
immediate of it fits into the instruction, and it uses the same registers.

**Proof sketch.** Only the negation of an immediate is a new operand, and it fits since the
immediate is small. -/
theorem Compares.comparison {width : Int} {src : Operand} (h : Compares width src)
    (negated : Bool) : IsKnown (comparison src negated).1 ∧
      Accepts width (Lower.comparison src negated).2.2 ∧
      (∀ i, (Lower.comparison src negated).2.2 = .imm i → fitsInt32 i.shifted.toInt) ∧
      (Lower.comparison src negated).2.2.registers = src.registers := by
  have hfits : ∀ i, src = .imm i → fitsInt32 i.shifted.toInt :=
    fun i hi => fitsInt32_of_small (h.small i hi)
  unfold Lower.comparison
  split
  · split
    · split
      · exact ⟨fun c => by simp, h.accepts, hfits, rfl⟩
      · refine ⟨fun c => by simp, trivial, ?_, rfl⟩
        rintro _ ⟨rfl⟩
        rename_i v hzero
        rw [shifted_unshifted]
        exact fitsInt32_neg (h.small v rfl)
    · exact ⟨fun c => by simp, h.accepts, hfits, rfl⟩
  · exact ⟨fun c => by simp, h.accepts, hfits, rfl⟩

/-- Compares that add, but for constants other than zero, are sums. -/
theorem comparison_true {src : Operand} (h : ∀ i, src = .imm i → i.shifted = 0) :
    comparison src true = (.add, .fromAdd, src) := by
  cases src with
  | imm i => simp [comparison, h i rfl]
  | _ => rfl

/-- The flags of a compare are those of the operation that stands for it.

**Proof sketch.** A subtraction has the flags of the guest's (`guest_ofSub`), and so has an
addition (`guest_ofAdd`). An addition of an immediate other than zero is made as a subtraction of
its negation, which has the same flags (`guest_ofSub_neg`). -/
theorem compareFlags_of_apply {s : Guest.State} {rn : Register} {src : Operand} {negated : Bool}
    (hsmall : ∀ i, src = .imm i → i.shifted.toNat < 0x1000000) {x : Word}
    {y : BitVec (bits rn.width)} {f f' : Host.Flags} {result : Option (BitVec (bits rn.width))}
    (hx : s.read rn = some x) (hy : s.source _ (comparison src negated).2.2 = some y)
    (happly : (comparison src negated).1.apply f (x.setWidth _) y = some (result, f')) :
    s.compareFlags rn src (!negated) = some ((comparison src negated).2.1.guest f') := by
  have hbits := Guest.bits_cases rn.width
  cases negated with
  | false =>
    cases happly
    have hy : s.source _ src = some y := hy
    rw [show (comparison src false).2.1 = .fromSub from rfl, guest_ofSub hbits]
    simp [Guest.State.compareFlags, hx, hy]
  | true =>
    by_cases hneg : ∃ i, src = .imm i ∧ i.shifted ≠ 0
    · obtain ⟨i, rfl, hi⟩ := hneg
      have hsmall := hsmall i rfl
      have hcomp : comparison (.imm i) true =
          (.sub, .fromSub, .imm { value := -i.shifted }) := if_neg hi
      rw [hcomp] at hy happly ⊢
      cases happly
      have hlow : (i.shifted.setWidth (bits rn.width)).toNat = i.shifted.toNat := by
        rw [BitVec.toNat_setWidth]
        obtain h | h := hbits <;> rw [h] <;> omega
      obtain rfl : -i.shifted.setWidth (bits rn.width) = y := by
        have hneg : (-i.shifted).setWidth (bits rn.width) = y := by
          simpa [Guest.State.source] using hy
        rw [← hneg]
        exact (BitVec.setWidth_neg_of_le (by obtain h | h := hbits <;> omega)).symm
      rw [guest_ofSub_neg hbits _ _ ?_ (by omega)]
      · simp [Guest.State.compareFlags, hx, Guest.State.source]
      · intro hzero
        rw [hzero] at hlow
        exact hi (BitVec.eq_of_toNat_eq (by simpa using hlow.symm))
    · push Not at hneg
      rw [comparison_true hneg] at hy happly ⊢
      cases happly
      rw [guest_ofAdd hbits]
      simp [Guest.State.compareFlags, hx, hy]

/-- **Comparing** sets the flags that comparing gives. -/
theorem compareWith_lowers {rn : Register} {src : Operand} (hw : Host.isWidth rn.width)
    (hsrc : Compares rn.width src) (negated : Bool) (e : Emission) :
    Lowers (compareWith rn src negated) e
      (fun _ e' w => e'.goesOn = e.goesOn ∧ e'.code.length ≤ e.code.length + 23 ∧
        e.scratch.free ≤ e'.scratch.free + 4 ∧ ∀ s, ∃ f t,
          s.guest.compareFlags rn src (!negated) = some f ∧ w s = .fell t ∧ Held {} s t ∧
            t.guest = s.guest.setFlags f)
      (Refused (rn :: src.registers) 6 e.scratch) := by
  obtain ⟨hop, haccepts, himm, hregs⟩ := hsrc.comparison negated
  rw [compareWith_eq rn hsrc.accepts, ← hregs]
  refine (compareBy_lowers rn hop hw haccepts himm _ _ e).mono ?_ fun f hf => hf
  rintro _ e' w ⟨hgoes, hlen, hfree, hrun⟩
  refine ⟨hgoes, hlen, hfree, fun s => ?_⟩
  obtain ⟨x, y, f, result, f', t, hx, hy, happly, ht, hheld, hguest⟩ := hrun s
  exact ⟨_, t, compareFlags_of_apply hsrc.small hx hy happly, ht, hheld, hguest⟩

/-- The last operand of a compare is acceptable. -/
theorem compares_of_addend {width : Int} {src : Operand} (h : Guest.Addend width src) :
    Compares width src := by
  refine ⟨accepts_of_addend h, ?_⟩
  rintro i rfl
  cases h with
  | imm h => exact h

/-- The second operand of a conditional compare is acceptable. -/
theorem compares_of_comparand {width : Int} {src : Operand} (h : Guest.Comparand src) :
    Compares width src := by
  cases h with
  | imm h => exact ⟨trivial, by rintro _ ⟨rfl⟩; exact h⟩
  | reg => exact ⟨trivial, by rintro _ ⟨⟩⟩

/-- The code of a compare, for operands of the right kinds. -/
theorem compare_eq (o : Guest.Op) (rn : Register) (src : Operand) (negated : Bool) :
    compare { op := o, operands := [.reg rn, src] } negated =
      goOn >>= fun _ => compareWith rn src negated := by
  simp [compare, wantOperands, registerAt, operandAt]

/-- **Compares** are lowered as they are meant.

**Proof sketch.** The code falls through with the flags of the compare stored
(`compareWith_lowers`), which is the effect of the step. -/
theorem compare_realizes {o : Guest.Op} {rn : Register} {src : Operand} {pc : Word}
    (hw : Host.isWidth rn.width) (hsrc : Guest.Addend rn.width src) (negated : Bool)
    (hstep : ∀ s : Guest.State, s.step pc { op := o, operands := [.reg rn, src] } =
      (s.compareFlags rn src (!negated)).map fun f => .next (s.setFlags f))
    (hends : o.endsLine = false) :
    Realizes (compare { op := o, operands := [.reg rn, src] } negated) pc
      { op := o, operands := [.reg rn, src] } fun _ => True := by
  intro e
  rw [compare_eq, named_of_ne (by rintro rfl; cases hends)]
  refine .goOn_bind ((compareWith_lowers hw (compares_of_addend hsrc) negated e.goOn).mono ?_
    fun f hf => hf.mono (by simp) (by omega))
  rintro _ e' w ⟨hgoes, -, -, hrun⟩
  refine ⟨by simp [hgoes, hends], fun s => ?_⟩
  obtain ⟨f, t, hf, ht, hheld, hguest⟩ := hrun s
  refine ⟨.next t.guest, ?_, fun _ => ht ▸ .next hheld⟩
  rw [hstep, hf, hguest]
  rfl

/-- The inverse of a condition that is not always true holds exactly where the condition does
not. -/
theorem holds_invert {c : Guest.Condition} (h : c.isAlways = false) (f : Guest.Flags) :
    c.invert.holds f = !c.holds f := by
  have hcode : c.code.toNat < 14 := by simpa [Guest.Condition.isAlways] using h
  have hdiv : (c.code ^^^ 1).toNat / 2 = c.code.toNat / 2 := by
    rw [BitVec.toNat_xor, Nat.xor_div_two]
    exact Nat.xor_zero _
  have hbit : (c.code ^^^ 1).getLsbD 0 = !c.code.getLsbD 0 := by simp
  simp only [Guest.Condition.invert, h, Guest.Condition.holds, hdiv, hbit, Bool.false_eq_true,
    if_false]
  have hcases : c.code.toNat / 2 < 7 := by omega
  generalize c.code.toNat / 2 = k at hcases ⊢
  interval_cases k <;> simp

/-- The code of a conditional compare, for operands of the right kinds and flags of four bits. -/
theorem condCompare_eq {o : Guest.Op} {rn : Register} {src : Operand} {nzcv : Immediate}
    (hnzcv : nzcv.value ≤ 0xF) (cond : Guest.Condition) (negated : Bool) :
    condCompare { op := o, operands := [.reg rn, src, .imm nzcv, .cond cond] } negated =
      goOn >>= fun _ =>
        if cond.isAlways then compareWith rn src negated
        else (do
          let otherwise ← newLabel
          let done ← newLabel
          branchIf cond.invert otherwise
          compareWith rn src negated
          emitBranch .always done
          bindLabel otherwise
          setFlags (nzcv.value.setWidth 4)
          bindLabel done) := by
  have hrange : ¬ 15#64 < nzcv.value := by simpa using hnzcv
  simp [condCompare, wantOperands, registerAt, operandAt, immediateAt, conditionAt, hrange]

/-- **Conditional compares** are lowered as they are meant.

**Proof sketch.** A condition that always holds is not tested, and the code is that of the
compare. Otherwise it branches on the inverse condition (`branchIf_branches`), so the compare is
run if the condition holds (`compareWith_lowers`) and the literal flags are set if it does not
(`setFlags_lowers`). -/
theorem condCompare_realizes {o : Guest.Op} {rn : Register} {src : Operand} {nzcv : Immediate}
    {cond : Guest.Condition} {pc : Word} (hw : Host.isWidth rn.width)
    (hsrc : Guest.Comparand src) (hnzcv : nzcv.value ≤ 0xF) (negated : Bool)
    (hstep : ∀ s : Guest.State,
      s.step pc { op := o, operands := [.reg rn, src, .imm nzcv, .cond cond] } =
        s.condCompare rn src nzcv.value cond (!negated)) (hends : o.endsLine = false) :
    Realizes (condCompare { op := o, operands := [.reg rn, src, .imm nzcv, .cond cond] } negated)
      pc { op := o, operands := [.reg rn, src, .imm nzcv, .cond cond] } fun _ => True := by
  intro e
  have hcomp := compareWith_lowers hw (compares_of_comparand hsrc) negated
  rw [condCompare_eq hnzcv, named_of_ne (by rintro rfl; cases hends)]
  refine .goOn_bind ?_
  split
  · rename_i halways
    refine (hcomp e.goOn).mono ?_ fun f hf => hf.mono (by simp) (by omega)
    rintro _ e' w ⟨hgoes, -, -, hrun⟩
    refine ⟨by simp [hgoes, hends], fun s => ?_⟩
    obtain ⟨f, t, hf, ht, hheld, hguest⟩ := hrun s
    refine ⟨.next t.guest, ?_, fun _ => ht ▸ .next hheld⟩
    rw [hstep, hguest]
    simp [Guest.State.condCompare, hf, holds_of_isAlways halways]
  · rename_i hsome
    have hreach : Code.reach = 64 := rfl
    have hinvert := holds_invert (Bool.eq_false_iff.2 hsome)
    have htest := branchIf_branches cond.invert e.goOn.code.labels.size
      { e.goOn with code := e.goOn.code.createLabel.1.createLabel.1 }
    refine .choose (T := fun w c e' v => e'.goesOn = true ∧
        e.scratch.free ≤ e'.scratch.free + 4 ∧
        (∀ s, ∃ t, w s = .fell t ∧ Held {} s t ∧ t.guest = s.guest ∧
          c.holds t.flags = !cond.holds s.guest.flags) ∧
        ∀ s, ∃ f t, s.guest.compareFlags rn src (!negated) = some f ∧ v s = .fell t ∧
          Held {} s t ∧ t.guest = s.guest.setFlags f)
      (htest.mono (fun _ _ _ => id) fun f hf => hf.mono (by simp) (by omega)) ?_ ?_
    · rintro e₁ w c ⟨hscratch, hgoes, hbranch⟩
      have hscratch : e₁.scratch = e.scratch := hscratch
      have hgoes : e₁.goesOn = true := hgoes
      refine (hcomp e₁).mono ?_ fun f hf => hf.lift (by simp) (by rw [hscratch]; omega)
      rintro _ e₂ v ⟨hgoes₂, hlen, hfree, hrun⟩
      refine ⟨?_, ?_, ?_, ?_, hrun⟩
      · omega
      · rw [← hgoes, ← hgoes₂]
      · rwa [hscratch] at hfree
      · intro s
        obtain ⟨t, ht, hheld, hguest, hc⟩ := hbranch s
        exact ⟨t, ht, hheld.empty, hguest, hc.trans (hinvert _)⟩
    · rintro w c e₁ v ⟨hgoes, hfree, hbranch, hrun⟩
      refine (setFlags_lowers _ e₁).mono ?_ fun f hf => hf.lift (by simp) (by omega)
      rintro _ e₂ u ⟨hadds, hset⟩
      have hlen := hadds.length
      refine ⟨by omega, ?_, fun s => ?_⟩
      · simp [hadds.goesOn, hgoes, hends]
      · obtain ⟨s₁, h₁, hheld₁, hguest₁, hc⟩ := hbranch s
        obtain ⟨f, t, hf, ht, hheld, hguest⟩ := hrun s₁
        obtain ⟨t', ht', hheld', hguest'⟩ := hset s₁
        rw [hguest₁] at hf hguest hguest'
        have hrest : (w.andThen (.ifElse c u v)) s =
            .fell (if cond.holds s.guest.flags then t else t') := by
          rw [Meaning.andThen_of_fell h₁, Meaning.ifElse, hc]
          cases cond.holds s.guest.flags <;> simp [ht, ht']
        refine ⟨.next (if cond.holds s.guest.flags then t else t').guest, ?_, fun _ => ?_⟩
        · rw [hstep, Guest.State.condCompare, hf]
          cases cond.holds s.guest.flags <;> simp [hguest, hguest']
        · rw [hrest]
          refine .next (hheld₁.trans ?_)
          cases cond.holds s.guest.flags
          · exact hheld'.empty
          · exact hheld

end Dynarec.Lower
