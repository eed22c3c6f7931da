import Dynarec.Lower.Flags
import Dynarec.Proofs.Lower.Registers
import Mathlib.Tactic.IntervalCases

/-!
# Flag code

Collecting the host flags gives the guest flags, for sums and differences alike, and testing a guest
condition agrees with the condition whatever the rest of the flag cell holds.

## Main definitions

* `Dynarec.Lower.Carry.guest` — the guest flags that host flags stand for.

## Main results

* `Dynarec.Lower.updateFlags_lowers` — guest flags from host flags.
* `Dynarec.Lower.setFlags_lowers` — guest flags from a constant.
* `Dynarec.Lower.branchIf_branches` — a branch on a guest condition.
-/

set_option autoImplicit false

namespace Dynarec.Lower

open Host (Reg Inst State)
open Code (Walked walk)

/-! ## Collecting flags -/

/-- The guest flags that host flags stand for. -/
def Carry.guest (carry : Carry) (f : Host.Flags) : Guest.Flags where
  negative := f.sign
  zero := f.zero
  carry := if carry = .fromSub then !f.carry else f.carry
  overflow := f.overflow

/-- The accumulator once the flags are collected in it: the low flags in its second byte, overflow
in its lowest bit. -/
def collected (f : Host.Flags) : Word :=
  (f.lowByte.setWidth 64 <<< 8) ||| (BitVec.ofBool f.overflow).setWidth 64

/-- What was in the accumulator before does not matter. -/
theorem setWidth_collected (a : Word) (f : Host.Flags) :
    ((((a &&& ~~~(0xFF00 : Word) ||| (f.lowByte.setWidth 64 <<< 8)) &&& ~~~(0xFF : Word)) |||
      (BitVec.ofBool f.overflow).setWidth 64).setWidth 16).setWidth 64 = collected f := by
  unfold collected
  generalize f.lowByte = b
  ext i hi
  by_cases h : i < 16
  · interval_cases i <;> simp
  · have hzero : i ≠ 0 := by omega
    have hb : b.getLsbD (i - 8) = false := BitVec.getLsbD_of_ge b _ (by omega)
    simp [h, hzero, hb]

/-- Running code from `s` ends in `t`, where one register has a new value and nothing else has
changed but flags. -/
structure Sets (w : Meaning) (s : State) (r : Reg) (v : Word) (t : State) : Prop where
  run : w s = .fell t
  value : t.reg r = v
  others : ∀ q, q ≠ r → t.reg q = s.reg q
  guest : t.guest = s.guest

namespace Sets

variable {w w' : Meaning} {s t t' : State} {r q : Reg} {v v' mask : Word} {n : Byte}

/-- A change of one register and of the flags, as the instructions of flag code make it. -/
theorem of_fell {f : Host.Flags} (h : w s = .fell ((s.setReg r v).setFlags f)) :
    Sets w s r v ((s.setReg r v).setFlags f) where
  run := h
  value := by simp
  others q hq := by simp [hq]
  guest := rfl

/-- Two changes of one register. -/
theorem trans (h : Sets w s r v t) (h' : Sets w' t r v' t') : Sets (w.andThen w') s r v' t' where
  run := (Meaning.andThen_of_fell h.run w').trans h'.run
  value := h'.value
  others q hq := (h'.others q hq).trans (h.others q hq)
  guest := h'.guest.trans h.guest

variable (s r q v mask n)

/-- A move of a whole register. -/
theorem mov : ∃ t, Sets (does (.mov 64 r q)) s r (s.reg q) t :=
  ⟨_, of_fell (f := s.flags) rfl⟩

/-- A move of a constant in its long form. -/
theorem movAbs : ∃ t, Sets (does (.movAbs r v)) s r v t :=
  ⟨_, of_fell (f := s.flags) rfl⟩

/-- Masking the lower half of a register; the upper half is cleared. -/
theorem and : ∃ t, Sets (does (.aluImm .and 32 r mask)) s r
    (((s.reg r).setWidth 32 &&& mask.setWidth 32).setWidth 64) t :=
  ⟨_, of_fell rfl⟩

/-- Flipping bits of the lower half of a register; the upper half is cleared. -/
theorem xor : ∃ t, Sets (does (.aluImm .xor 32 r mask)) s r
    (((s.reg r).setWidth 32 ^^^ mask.setWidth 32).setWidth 64) t :=
  ⟨_, of_fell rfl⟩

/-- Merging the lower halves of two registers; the upper half is cleared. -/
theorem or : ∃ t, Sets (does (.alu .or 32 r q)) s r
    (((s.reg r).setWidth 32 ||| (s.reg q).setWidth 32).setWidth 64) t :=
  ⟨_, of_fell rfl⟩

/-- Shifting the lower half of a register up; the upper half is cleared. -/
theorem shl : ∃ t, Sets (does (.shift .shl 32 r n)) s r
    (((s.reg r).setWidth 32 <<< n.toNat).setWidth 64) t :=
  ⟨_, of_fell rfl⟩

/-- Extending the lowest two bytes of a register with zeros. -/
theorem movzx16 : ∃ t, Sets (does (.movzx16 r q)) s r (((s.reg q).setWidth 16).setWidth 64) t :=
  ⟨_, of_fell (f := s.flags) rfl⟩

/-- A move of a constant in its shortest form. -/
theorem movImm : ∃ t, Sets (does (.movImm r v)) s r v t :=
  ⟨_, of_fell (f := s.flags) rfl⟩

/-- Loading a cell whose address is in a register. -/
theorem loadCell {c : Cell} (h : s.reg q = c.address) :
    ∃ t, Sets (does (.load r q 0 8)) s r (s.guest.registers.get c) t :=
  ⟨_, of_fell (f := s.flags) (does_loadCell s r q h)⟩

/-- Shifting a whole register down. -/
theorem shr : ∃ t, Sets (does (.shift .shr 64 r n)) s r ((s.reg r) >>> n.toNat) t :=
  ⟨_, of_fell rfl⟩

/-- Shifting the lower half of a register down; the upper half is cleared. -/
theorem shrNarrow : ∃ t, Sets (does (.shift .shr 32 r n)) s r
    (((s.reg r).setWidth 32 >>> n.toNat).setWidth 64) t :=
  ⟨_, of_fell rfl⟩

/-- Collecting the flags in the accumulator. The host first puts its low flags in the second byte
and then, by a test, overflow in the lowest one; what else the accumulator held is cleared.

**Proof sketch.** The first two instructions each replace one byte of the accumulator, and
the last clears what lies above these two bytes (`setWidth_collected`). -/
theorem collect : ∃ t, Sets ((does .lahf).andThen ((does (.setcc .overflow .rax)).andThen
    (does (.movzx16 .rax .rax)))) s .rax (collected s.flags) t := by
  let a := (s.reg .rax &&& ~~~(0xFF00 : Word)) ||| (s.flags.lowByte.setWidth 64 <<< 8)
  let b := (a &&& ~~~(0xFF : Word)) ||| (BitVec.ofBool s.flags.overflow).setWidth 64
  have hlahf : Sets (does .lahf) s .rax a ((s.setReg .rax a).setFlags s.flags) := of_fell rfl
  have hset : Sets (does (.setcc .overflow .rax)) ((s.setReg .rax a).setFlags s.flags) .rax b
      ((((s.setReg .rax a).setFlags s.flags).setReg .rax b).setFlags s.flags) := by
    refine of_fell (does_of_step ?_ (by simp))
    simp [Inst.step, Host.Cond.holds, Host.Cond.overflow, b, Host.State.setFlags, Host.State.setReg,
      Host.State.reg]
  obtain ⟨t, ht⟩ := movzx16
    ((((s.setReg .rax a).setFlags s.flags).setReg .rax b).setFlags s.flags) .rax .rax
  rw [hset.value, setWidth_collected] at ht
  exact ⟨t, hlahf.trans (hset.trans ht)⟩

/-- Taking bits out of a register and moving them up. -/
theorem field : ∃ t, Sets ((does (.aluImm .and 32 r mask)).andThen (does (.shift .shl 32 r n))) s r
    ((((s.reg r).setWidth 32 &&& mask.setWidth 32) <<< n.toNat).setWidth 64) t := by
  obtain ⟨t, ht⟩ := and s r mask
  obtain ⟨t', ht'⟩ := shl t r n
  rw [ht.value] at ht'
  exact ⟨t', by simpa using ht.trans ht'⟩

end Sets

/-- The mask that flips the carry where the host counts borrows. -/
def Carry.flip (carry : Carry) : BitVec 32 :=
  if carry = .fromSub then 0x100 else 0

/-- The packed guest flags, as they are put together from a collected accumulator. -/
def packed (carry : Carry) (a : Word) : Word :=
  let low : BitVec 32 := a.setWidth 32
  (((low &&& 0xC000) <<< 16) ||| (((low &&& 0x100) ^^^ carry.flip) <<< 21) |||
    ((low &&& 1) <<< 28)).setWidth 64

/-- **The packed flags are those of the guest.** Of the collected flags those that the guest has no
use for are masked away.

**Proof sketch.** There are six host flags and two kinds of carry, so all cases can be tried. -/
theorem packed_collected (carry : Carry) (f : Host.Flags) :
    packed carry (collected f) = (carry.guest f).toWord := by
  obtain ⟨c, p, a, z, n, v⟩ := f
  cases carry <;> revert c p a z n v <;> decide +kernel

/-- The code that flips the carry where the host counts borrows. -/
def flipping (carry : Carry) (r : Reg) : Meaning :=
  if carry = .fromSub then does (.aluImm .xor 32 r 0x100) else Walked.fell

/-- The code that flips the carry does so, or nothing where the host counts carries as the guest
does. -/
theorem Sets.flipping (carry : Carry) (s : State) (r : Reg) {y : BitVec 32}
    (h : s.reg r = y.setWidth 64) :
    ∃ t, Sets (flipping carry r) s r ((y ^^^ carry.flip).setWidth 64) t := by
  cases carry with
  | fromSub =>
    obtain ⟨t, ht⟩ := Sets.xor s r 0x100
    rw [h, BitVec.setWidth_setWidth_of_le _ (by decide), BitVec.setWidth_eq] at ht
    exact ⟨t, ht⟩
  | fromAdd =>
    refine ⟨s, ⟨rfl, ?_, fun _ _ => rfl, rfl⟩⟩
    simpa [Carry.flip] using h

/-- The code that puts the packed flags together from the collected ones. -/
def packing (carry : Carry) (nzcv tmp : Reg) : Meaning :=
  ((does (.mov 64 nzcv .rax)).andThen
    ((does (.aluImm .and 32 nzcv 0xC000)).andThen (does (.shift .shl 32 nzcv 16)))).andThen <|
  ((does (.mov 64 tmp .rax)).andThen <| (does (.aluImm .and 32 tmp 0x100)).andThen <|
    (flipping carry tmp).andThen (does (.shift .shl 32 tmp 21))).andThen <|
  (does (.alu .or 32 nzcv tmp)).andThen <|
  ((does (.aluImm .and 32 .rax 1)).andThen (does (.shift .shl 32 .rax 28))).andThen
    (does (.alu .or 32 nzcv .rax))

/-- Putting the packed flags together spends the accumulator and another register.

**Proof sketch.** Sign and zero are next to each other and move together; carry and overflow are
taken out one by one. Each part is a chain of changes of one register (`Sets.trans`), so that the
parts can be read off the registers that the others leave alone. -/
theorem packing_fell (carry : Carry) {nzcv tmp : Reg} (hn : nzcv ≠ .rax) (ht : tmp ≠ .rax)
    (hne : tmp ≠ nzcv) (s : State) : ∃ t, packing carry nzcv tmp s = .fell t ∧
      t.reg nzcv = packed carry (s.reg .rax) ∧ t.guest = s.guest ∧
        ∀ q, q ≠ nzcv → q ≠ tmp → q ≠ .rax → t.reg q = s.reg q := by
  obtain ⟨s₁, h₁⟩ := Sets.mov s nzcv .rax
  obtain ⟨s₂, h₂⟩ := Sets.field s₁ nzcv 0xC000 16
  have hnz := h₁.trans h₂
  obtain ⟨s₃, h₃⟩ := Sets.mov s₂ tmp .rax
  obtain ⟨s₄, h₄⟩ := Sets.and s₃ tmp 0x100
  obtain ⟨s₅, h₅⟩ := Sets.flipping carry s₄ tmp h₄.value
  obtain ⟨s₆, h₆⟩ := Sets.shl s₅ tmp 21
  have hc := h₃.trans (h₄.trans (h₅.trans h₆))
  obtain ⟨s₇, h₇⟩ := Sets.or s₆ nzcv tmp
  obtain ⟨s₈, h₈⟩ := Sets.field s₇ .rax 1 28
  obtain ⟨s₉, h₉⟩ := Sets.or s₈ nzcv .rax
  refine ⟨s₉, ?_, ?_, ?_, fun q hqn hqt hqa => ?_⟩
  · unfold packing
    rw [Meaning.andThen_of_fell hnz.run, Meaning.andThen_of_fell hc.run,
      Meaning.andThen_of_fell h₇.run, Meaning.andThen_of_fell h₈.run, h₉.run]
  · have ha : s₂.reg .rax = s.reg .rax := hnz.others _ hn.symm
    have ha' : s₇.reg .rax = s.reg .rax := by
      rw [h₇.others _ hn.symm, hc.others _ ht.symm, ha]
    rw [h₉.value, h₈.value, h₈.others _ hn, h₇.value, ha', hc.value, hc.others _ hne.symm,
      hnz.value, h₅.value, h₃.value, h₁.value, ha]
    simp [packed]
  · rw [h₉.guest, h₈.guest, h₇.guest, hc.guest, hnz.guest]
  · rw [h₉.others q hqn, h₈.others q hqa, h₇.others q hqn, hc.others q hqt, hnz.others q hqn]

/-- **Guest flags from host flags.** The flags of the instruction before are stored in the flag
cell; the accumulator and free registers are spent.

**Proof sketch.** The code collects the host flags (`Sets.collect`), packs them as the guest has
them (`packing_fell`, `packed_collected`) and stores what comes of it. The instructions change
the host flags, but only after they are collected. -/
theorem updateFlags_lowers (carry : Carry) (e : Emission) :
    Lowers (updateFlags carry) e
      (fun _ e' w => Adds 17 (e.scratch.reserve .rax) e e' ∧ ∀ s, ∃ t, w s = .fell t ∧
        Held (e.scratch.release .rax) s t ∧ t.guest = s.guest.setFlags (carry.guest s.flags))
      (Refused [] 3 e.scratch) := by
  unfold updateFlags
  refine .reserve_bind (.claim_bind (fun nzcv hnzcv hfree => ?_)
    fun f hf => hf.reserve.mono (by simp) (by omega))
  refine .claim_bind (fun tmp htmp hfree' => ?_) fun f hf => hf.reserve.reserve
  have hrelease : ((((e.scratch.reserve .rax).reserve nzcv).reserve tmp).release tmp).release nzcv =
      e.scratch.reserve .rax := by
    rw [Scratch.release_reserve (by simpa using hfree'),
      Scratch.release_reserve (by simpa using hfree)]
  obtain ⟨hfreeN, hax⟩ : e.scratch.inUse nzcv = false ∧ nzcv ≠ .rax := by simpa using hfree
  obtain ⟨⟨hfreeT, hax'⟩, hne⟩ : (e.scratch.inUse tmp = false ∧ tmp ≠ .rax) ∧ tmp ≠ nzcv := by
    simpa using hfree'
  have hmeaning : ∀ s, ∃ t, ((does .lahf).andThen <| (does (.setcc .overflow .rax)).andThen <|
      (does (.movzx16 .rax .rax)).andThen <| (packing carry nzcv tmp).andThen <|
      (does (.movAbs tmp Cell.nzcv.address)).andThen <| (does (.store tmp 0 nzcv 8)).andThen
        Walked.fell) s = .fell t ∧
        Held (e.scratch.release .rax) s t ∧ t.guest = s.guest.setFlags (carry.guest s.flags) := by
    intro s
    obtain ⟨s₁, h₁⟩ := Sets.collect s
    obtain ⟨s₂, hrun, hvalue, hguest, hothers⟩ := packing_fell carry hax hax' hne s₁
    obtain ⟨s₃, h₃⟩ := Sets.movAbs s₂ tmp Cell.nzcv.address
    have hstore := does_storeCell s₃ nzcv tmp h₃.value
    refine ⟨s₃.setCell .nzcv (s₃.reg nzcv), ?_, fun q hq => ?_, ?_⟩
    · have hcollect := Meaning.andThen_of_fell h₁.run
      simp only [Meaning.andThen_assoc] at hcollect
      rw [hcollect, Meaning.andThen_of_fell hrun, Meaning.andThen_of_fell h₃.run,
        Meaning.andThen_fell, hstore]
    · have hqn := Scratch.ne_of_free hnzcv (by simp [hfreeN]) hq
      have hqt := Scratch.ne_of_free htmp (by simp [hfreeT]) hq
      have hqa : q ≠ .rax := Scratch.ne_of_free (by decide) (by simp) hq
      rw [Host.State.reg_setCell, h₃.others q hqt, hothers q hqn hqt hqa, h₁.others q hqa]
    · rw [Host.State.guest_setCell, h₃.guest, hguest, h₁.guest, h₃.others _ (Ne.symm hne), hvalue,
        h₁.value, packed_collected]
      rfl
  simp only [packing, flipping, Meaning.andThen_assoc] at hmeaning
  cases carry with
  | fromSub =>
    simp only [reduceIte] at hmeaning ⊢
    iterate 16 refine .emit_bind ⟨_, rfl⟩ ?_
    refine .release_bind (.release ⟨⟨?_, by simp, by simp⟩, fun s => ?_⟩)
    · simpa only [Emission.scratch_release, Emission.scratch_add, Emission.scratch_reserve]
        using hrelease
    · exact hmeaning s
  | fromAdd =>
    simp only [reduceCtorEq, reduceIte, Meaning.fell_andThen] at hmeaning ⊢
    iterate 15 refine .emit_bind ⟨_, rfl⟩ ?_
    refine .release_bind (.release ⟨⟨?_, by simp, by simp⟩, fun s => ?_⟩)
    · simpa only [Emission.scratch_release, Emission.scratch_add, Emission.scratch_reserve]
        using hrelease
    · exact hmeaning s

/-! ## Constant flags -/

/-- Four bits of flags are what is read back from them. -/
theorem nibble_ofNibble (b : BitVec 4) : (Guest.Flags.ofNibble b).nibble = b := by
  revert b
  decide

/-- **Guest flags from a constant.**

**Proof sketch.** The constant is put into a scratch register and stored in the cell of the
flags, and the cell gives back the four bits it was made from (`nibble_ofNibble`). -/
theorem setFlags_lowers (nibble : BitVec 4) (e : Emission) :
    Lowers (setFlags nibble) e
      (fun _ e' w => Adds 3 e.scratch e e' ∧ ∀ s, ∃ t, w s = .fell t ∧ Held e.scratch s t ∧
        t.guest = s.guest.setFlags (.ofNibble nibble))
      (Refused [] 3 e.scratch) := by
  refine .withScratch (fun val hval hfree => ?_) fun f hf => hf.mono (by simp) (by omega)
  refine .emit_bind ⟨_, rfl⟩ ((storeCell_lowers .nzcv val _).mono ?_ fun f hf => hf.reserve)
  rintro _ e' w ⟨hadds, hstore⟩
  refine ⟨⟨?_, hadds.goesOn, ?_⟩, fun s => ?_⟩
  · rw [Emission.scratch_release, hadds.scratch, Scratch.reserve_of_inUse (by simp)]
    exact Scratch.release_reserve hfree
  · have := ((Adds.emit (e.reserve val) _).trans hadds).length
    simpa using this
  · obtain ⟨t, ht, hheld, -, hguest⟩ :=
      hstore (s.setReg val (nibble.setWidth 64 <<< Guest.Flags.shift))
    refine ⟨t, ?_, ?_, ?_⟩
    · rw [Meaning.andThen_of_fell (does_movImm ..)]
      exact ht
    · exact ((Held.refl _ s).setReg hval hfree _).trans (hheld.mono fun q hq => by simp [hq])
    · rw [hguest]
      simp [Guest.State.setFlags, Guest.Flags.toWord, nibble_ofNibble, Registers.set]

/-! ## Testing conditions -/

/-- The bits of a set built up from a list of positions. -/
theorem getLsbD_foldl_or (p : Nat → Bool) (l : List Nat) (init : Word) {j : Nat} (hj : j < 64) :
    (l.foldl (fun t i => if p i then t ||| BitVec.twoPow 64 i else t) init).getLsbD j =
      (init.getLsbD j || decide (j ∈ l) && p j) := by
  induction l generalizing init with
  | nil => simp
  | cons i l ih =>
    rw [List.foldl_cons, ih]
    by_cases hij : j = i
    · subst hij
      cases hp : p j <;> simp [hj]
    · cases hp : p i <;> simp [hij, hj]

/-- The table of a condition has the bits of the flags that satisfy it. -/
theorem getLsbD_table (c : Guest.Condition) (b : BitVec 4) :
    c.table.getLsbD b.toNat = c.holds (.ofNibble b) := by
  have hb : b.toNat < 16 := b.isLt
  have h := getLsbD_foldl_or (fun i => c.holds (.ofNibble (BitVec.ofNat 4 i))) (List.range 16) 0
    (show b.toNat < 64 by omega)
  unfold Guest.Condition.table
  rw [h]
  simp [hb]

/-- A condition that is always true is true, whatever the flags. -/
theorem holds_of_isAlways {c : Guest.Condition} (h : c.isAlways) (f : Guest.Flags) :
    c.holds f = true := by
  have hcode : 7 ≤ c.code.toNat / 2 := by
    have : 14 ≤ c.code.toNat := by simpa [Guest.Condition.isAlways] using h
    omega
  unfold Guest.Condition.holds
  split <;> first | omega | rfl

/-- Loading the flag cell into a register. -/
theorem Sets.loadFlags (s : State) (r : Reg) : ∃ t,
    Sets ((does (.movAbs r Cell.nzcv.address)).andThen (does (.load r r 0 8))) s r
      s.guest.registers.nzcv t := by
  obtain ⟨s₁, h₁⟩ := Sets.movAbs s r Cell.nzcv.address
  obtain ⟨s₂, h₂⟩ := Sets.loadCell s₁ r r h₁.value
  rw [h₁.guest] at h₂
  exact ⟨s₂, h₁.trans h₂⟩

/-- Testing the zero flag of the guest sets that of the host when the guest's is clear.

**Proof sketch.** The flags are loaded and shifted until the zero flag is the lowest bit,
which is then alone in the register. Testing it sets the host's zero flag if it is clear. -/
theorem testZero_fell (s : State) (r : Reg) : ∃ t,
    ((does (.movAbs r Cell.nzcv.address)).andThen <| (does (.load r r 0 8)).andThen <|
      (does (.shift .shr 64 r 30)).andThen <| (does (.aluImm .and 32 r 1)).andThen <|
        (does (.test 32 r r)).andThen Walked.fell) s = .fell t ∧
    (∀ q, q ≠ r → t.reg q = s.reg q) ∧ t.guest = s.guest ∧
      t.flags.zero = !s.guest.flags.zero := by
  obtain ⟨s₁, h₁⟩ := Sets.loadFlags s r
  obtain ⟨s₂, h₂⟩ := Sets.shr s₁ r 30
  obtain ⟨s₃, h₃⟩ := Sets.and s₂ r 1
  have h := h₁.trans (h₂.trans h₃)
  let x := (s₃.reg r).setWidth 32
  refine ⟨s₃.setFlags (s₃.flags.ofLogic (x &&& x)), ?_, h.others, h.guest, ?_⟩
  · have hrun := Meaning.andThen_of_fell h.run
    simp only [Meaning.andThen_assoc] at hrun
    rw [hrun, Meaning.andThen_fell]
    exact does_of_step rfl (by simp)
  · have hzero : s.guest.flags.zero = s.guest.registers.nzcv.getLsbD 30 := by
      simp [Guest.State.flags, Guest.Flags.ofWord, Guest.Flags.ofNibble, Guest.Flags.shift]
    have hx : x = (BitVec.ofBool (s.guest.registers.nzcv.getLsbD 30)).setWidth 32 := by
      have hone : ∀ y : BitVec 32, y &&& 1#32 = (BitVec.ofBool (y.getLsbD 0)).setWidth 32 :=
        fun y => BitVec.and_one_eq_setWidth_ofBool_getLsbD
      simp only [x, h₃.value, h₂.value, h₁.value]
      rw [BitVec.setWidth_setWidth_of_le _ (by decide), BitVec.setWidth_eq]
      refine (hone _).trans ?_
      simp
    rw [hzero, Host.State.flags_setFlags, hx]
    cases s.guest.registers.nzcv.getLsbD 30 <;> rfl

/-- Looking the flags up in the table of a condition puts the answer into the host's carry.

**Proof sketch.** The flags are loaded and shifted until they are a number below sixteen, and
that bit of the table of the condition is its answer (`getLsbD_table`). -/
theorem lookup_fell (cond : Guest.Condition) (s : State) {r table : Reg} (hne : table ≠ r) : ∃ t,
    ((does (.movAbs r Cell.nzcv.address)).andThen <| (does (.load r r 0 8)).andThen <|
      (does (.shift .shr 32 r 28)).andThen <| (does (.movImm table cond.table)).andThen <|
        (does (.bt table r)).andThen Walked.fell) s = .fell t ∧
    (∀ q, q ≠ r → q ≠ table → t.reg q = s.reg q) ∧ t.guest = s.guest ∧
      t.flags.carry = cond.holds s.guest.flags := by
  obtain ⟨s₁, h₁⟩ := Sets.loadFlags s r
  obtain ⟨s₂, h₂⟩ := Sets.shrNarrow s₁ r 28
  have h := h₁.trans h₂
  obtain ⟨s₃, h₃⟩ := Sets.movImm s₂ table cond.table
  refine ⟨s₃.setFlags
    { s₃.flags with carry := (s₃.reg table).getLsbD ((s₃.reg r).toNat % 64) }, ?_, ?_, ?_, ?_⟩
  · have hrun := Meaning.andThen_of_fell h.run
    simp only [Meaning.andThen_assoc] at hrun
    rw [hrun, Meaning.andThen_of_fell h₃.run, Meaning.andThen_fell]
    exact does_of_step rfl (by simp)
  · intro q hqr hqt
    rw [Host.State.reg_setFlags, h₃.others q hqt, h.others q hqr]
  · rw [Host.State.guest_setFlags, h₃.guest, h.guest]
  · have hflags : s.guest.flags = .ofNibble ((s.guest.registers.nzcv >>> 28).setWidth 4) := rfl
    have hindex : (s₃.reg r).toNat % 64 = ((s.guest.registers.nzcv >>> 28).setWidth 4).toNat := by
      rw [h₃.others r hne.symm, h₂.value, h₁.value]
      simp [Nat.shiftRight_eq_div_pow]
      omega
    rw [Host.State.flags_setFlags, hindex, h₃.value, hflags, getLsbD_table]

/-- **A branch on a guest condition** is taken when the condition holds for the guest flags.

**Proof sketch.** By how the condition is looked up: a condition that always holds needs no
code, a test for zero looks at one flag (`testZero_fell`), and any other uses the table
(`lookup_fell`). -/
theorem branchIf_branches (cond : Guest.Condition) (label : Nat) (e : Emission) :
    Branches (branchIf cond label) label e
      (fun e' w c => e'.scratch = e.scratch ∧ e'.goesOn = e.goesOn ∧ ∀ s, ∃ t, w s = .fell t ∧
        Held e.scratch s t ∧ t.guest = s.guest ∧ c.holds t.flags = cond.holds s.guest.flags)
      (Refused [] 2 e.scratch) := by
  unfold branchIf
  split
  · rename_i halways
    refine .emitBranch (by decide) ⟨rfl, rfl, fun s => ⟨s, rfl, .refl _ s, rfl, ?_⟩⟩
    rw [holds_of_isAlways halways]
    rfl
  · refine .withScratch (fun r hr hfree => ?_) fun f hf => hf.mono (by simp) (by omega)
    split
    · rename_i hcond
      unfold loadZero
      simp only [bind_assoc]
      iterate 5 refine .emit_bind ⟨_, rfl⟩ ?_
      refine .emitBranch (by split <;> decide) ⟨?_, by simp, fun s => ?_⟩
      · exact Scratch.release_reserve hfree
      · obtain ⟨t, ht, hothers, hguest, hzero⟩ := testZero_fell s r
        refine ⟨t, ht, .of_others hr hfree hothers, hguest, ?_⟩
        obtain rfl | rfl := hcond
        · simpa [Host.Cond.holds, Host.Cond.notEqual, Guest.Condition.holds, Guest.Condition.eq]
            using congrArg (! ·) hzero
        · simpa [Host.Cond.holds, Host.Cond.equal, Guest.Condition.holds, Guest.Condition.ne,
            Guest.Condition.eq] using hzero
    · refine .withScratch (fun table htable hfree' => ?_) fun f hf => hf.reserve
      obtain ⟨hfreeT, hne⟩ : e.scratch.inUse table = false ∧ table ≠ r := by simpa using hfree'
      iterate 5 refine .emit_bind ⟨_, rfl⟩ ?_
      refine .emitBranch (by decide) ⟨?_, by simp, fun s => ?_⟩
      · exact (congrArg (·.release r) (Scratch.release_reserve hfree')).trans
          (Scratch.release_reserve hfree)
      · obtain ⟨t, ht, hothers, hguest, hcarry⟩ := lookup_fell cond s hne
        refine ⟨t, ht, fun q hq => ?_, hguest, ?_⟩
        · exact hothers q (Scratch.ne_of_free hr hfree hq) (Scratch.ne_of_free htable hfreeT hq)
        · rw [← hcarry]
          simp [Host.Cond.holds, Host.Cond.carry]

end Dynarec.Lower
