import Dynarec.Proofs.Lower.Flags

/-!
# Host and guest arithmetic

The host computes sums and differences as the guest does, and its flags stand for the guest's: the
carry of a difference is inverted, and adding a small number other than zero is subtracting its
negation.

## Main results

* `Dynarec.Lower.guest_ofAdd`, `Dynarec.Lower.guest_ofSub` — the guest flags of sums and
  differences.
* `Dynarec.Lower.guest_ofSub_neg` — the guest flags of a sum that is computed as a difference.
-/

set_option autoImplicit false

namespace Dynarec.Lower

open Guest (addWithCarry addOrSub)

variable {width : Int}

/-- The sum with a complement and a carry is the difference. -/
theorem fst_addOrSub_true {w : Nat} (x y : BitVec w) : (addOrSub true x y).1 = x - y := by
  rw [BitVec.sub_eq_add_neg, BitVec.neg_eq_not_add, ← BitVec.add_assoc]
  rfl

/-- The sum without a carry is the sum. -/
theorem fst_addOrSub_false {w : Nat} (x y : BitVec w) : (addOrSub false x y).1 = x + y :=
  BitVec.add_zero (x + y)

/-- The flags of a sum: carry and overflow tell whether it differs from the sum of the numbers,
without sign and with it. -/
theorem snd_addOrSub_false {w : Nat} (x y : BitVec w) : (addOrSub false x y).2 =
    { negative := (x + y).msb
      zero := x + y == 0
      carry := (x + y).toNat != x.toNat + y.toNat
      overflow := (x + y).toInt != x.toInt + y.toInt } := by
  simp [addOrSub, addWithCarry]

/-- The flags of a difference, in terms of the difference itself: the carry is set unless there
is a borrow. -/
theorem snd_addOrSub_true {w : Nat} (x y : BitVec w) : (addOrSub true x y).2 =
    { negative := (x - y).msb
      zero := x - y == 0
      carry := (x - y).toNat != x.toNat + (~~~y).toNat + 1
      overflow := (x - y).toInt != x.toInt + (~~~y).toInt + 1 } := by
  rw [← fst_addOrSub_true]
  rfl

/-- Adding: the host's flags are the guest's.

**Proof sketch.** Zero and negative are those of the result on both sides. The host's carry
and overflow are stated by bounds and the guest's by comparing the result with the unbounded sum,
which comes to the same in both widths. -/
theorem guest_ofAdd {w : Nat} (hw : w = 32 ∨ w = 64) (x y : BitVec w) :
    Carry.fromAdd.guest (.ofAdd x y) = (addOrSub false x y).2 := by
  have hcarry : x.uaddOverflow y = ((x + y).toNat != x.toNat + y.toNat) := by
    rw [BitVec.uaddOverflow, Bool.eq_iff_iff]
    simp only [decide_eq_true_eq, bne_iff_ne, BitVec.toNat_add]
    obtain rfl | rfl := hw <;> omega
  have hover : x.saddOverflow y = ((x + y).toInt != x.toInt + y.toInt) := by
    rw [BitVec.saddOverflow, Bool.eq_iff_iff]
    simp only [Bool.or_eq_true, decide_eq_true_eq, bne_iff_ne, BitVec.toInt_add, Int.bmod_def]
    have hx := x.toInt_lt
    have hx' := x.le_toInt
    have hy := y.toInt_lt
    have hy' := y.le_toInt
    obtain rfl | rfl := hw <;> omega
  rw [snd_addOrSub_false]
  simp [Carry.guest, Host.Flags.ofAdd, hcarry, hover]

/-- Subtracting: the host's flags are the guest's, with the carry inverted.

**Proof sketch.** The guest adds the complement and one. The host's borrow is the comparison
of the operands, which is there exactly if that sum has no carry. -/
theorem guest_ofSub {w : Nat} (hw : w = 32 ∨ w = 64) (x y : BitVec w) :
    Carry.fromSub.guest (.ofSub x y) = (addOrSub true x y).2 := by
  have hcarry : (!decide (x.toNat < y.toNat)) =
      ((x - y).toNat != x.toNat + (~~~y).toNat + 1) := by
    rw [Bool.eq_iff_iff]
    simp only [Bool.not_eq_true', decide_eq_false_iff_not, bne_iff_ne, BitVec.toNat_sub,
      BitVec.toNat_not]
    obtain rfl | rfl := hw <;> omega
  have hover : x.ssubOverflow y = ((x - y).toInt != x.toInt + (~~~y).toInt + 1) := by
    rw [BitVec.ssubOverflow, Bool.eq_iff_iff]
    simp only [Bool.or_eq_true, decide_eq_true_eq, bne_iff_ne, BitVec.toInt_sub, BitVec.toInt_not,
      Int.bmod_def]
    have hx := x.toInt_lt
    have hx' := x.le_toInt
    have hy := y.toInt_eq_toNat_cond
    have hy' := y.isLt
    obtain rfl | rfl := hw <;> omega
  rw [snd_addOrSub_true]
  simp only [Carry.guest, Host.Flags.ofSub, if_true, hcarry, hover]

/-- Adding a small number other than zero is subtracting its negation.

**Proof sketch.** The difference with the negation is the sum. There is no borrow exactly if
the sum carries, as the number is not zero, and overflow is the same, as the negation of a small
number cannot overflow. -/
theorem guest_ofSub_neg {w : Nat} (hw : w = 32 ∨ w = 64) (x y : BitVec w) (hy : y ≠ 0)
    (hsmall : y.toNat < 0x1000000) :
    Carry.fromSub.guest (.ofSub x (-y)) = (addOrSub false x y).2 := by
  have hsum : x - -y = x + y := by rw [BitVec.sub_eq_add_neg, BitVec.neg_neg]
  have hpos : 0 < y.toNat := by
    rw [Nat.pos_iff_ne_zero]
    intro h
    exact hy (BitVec.eq_of_toNat_eq (by simpa using h))
  have hcarry : (!decide (x.toNat < (-y).toNat)) = ((x + y).toNat != x.toNat + y.toNat) := by
    rw [Bool.eq_iff_iff]
    simp only [Bool.not_eq_true', decide_eq_false_iff_not, bne_iff_ne, BitVec.toNat_add,
      BitVec.toNat_neg]
    obtain rfl | rfl := hw <;> omega
  have hover : x.ssubOverflow (-y) = ((x + y).toInt != x.toInt + y.toInt) := by
    rw [BitVec.ssubOverflow, Bool.eq_iff_iff]
    simp only [Bool.or_eq_true, decide_eq_true_eq, bne_iff_ne, BitVec.toInt_add, BitVec.toInt_neg,
      Int.bmod_def]
    have hx := x.toInt_lt
    have hx' := x.le_toInt
    have hy := y.toInt_eq_toNat_cond
    obtain rfl | rfl := hw <;> omega
  rw [snd_addOrSub_false]
  simp only [Carry.guest, Host.Flags.ofSub, if_true, hsum, hcarry, hover]

/-- The host's sums and differences are the guest's, result and flags. -/
theorem addOrSub_of_apply {sub : Bool} {w : Nat} (hw : w = 32 ∨ w = 64) {f f' : Host.Flags}
    {x y r : BitVec w}
    (h : (if sub then Host.AluOp.sub else .add).apply f x y = some (some r, f')) :
    addOrSub sub x y = (r, (if sub then Carry.fromSub else .fromAdd).guest f') := by
  cases sub with
  | false =>
    cases h
    exact Prod.ext (fst_addOrSub_false x y) (guest_ofAdd hw x y).symm
  | true =>
    cases h
    exact Prod.ext (fst_addOrSub_true x y) (guest_ofSub hw x y).symm

end Dynarec.Lower
